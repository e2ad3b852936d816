import GrammarSearch.Proofs.Search.Bounded
import GrammarSearch.Proofs.Search.ProgramTree
import GrammarSearch.Search.Goal

/-!
# Best-first search of programs

A best-first search of the graph of programs takes the bound of its policy as a
bound on the number of productions used. It expands the partial programs within
the bound, each once, and no others, whatever the costs are
(`bestFirst_explores_programs`). So the goals it finds are the same for all
costs.

Nothing of this depends on which entry comes out of the frontier next. So it is
proved of frontiers of every kind, among them the one whose cost function has a
state (`Stateful`).
-/

namespace GrammarSearch

variable {V E σ : Type}

/-- The list has the elements with the property, each once. -/
def Enumerates {α : Type} (l : List α) (property : α → Prop) : Prop :=
  l.Nodup ∧ ∀ a, a ∈ l ↔ property a

/-- The policy bounds the depth alone, by less than the greatest depth that is counted, and SHA-256
does not collide on the partial programs that can be met, if duplicates are suppressed. -/
structure Policy.Explores (policy : Policy) (g : Grammar V) (target : ScopedTy) : Prop where
  unlimited : policy.maxExpansions = none
  counted : policy.maxDepth < maxCountedDepth
  collisionFree : policy.dedup = .structural → CollisionFree (g.upTo target (policy.maxDepth + 1))

variable {F K : Type} [Frontier F PartialProgram K] [LawfulFrontier F PartialProgram K]
  {g : Grammar V} {target : ScopedTy} {goal : PartialProgram → StateM σ (Except E Bool)}

/-- A course of a search has come to its natural end. It has expanded and tested the partial
programs within the bound, and discarded those with one production more. -/
structure BoundedCourse.IsExact (search : BoundedCourse F (programGraph g target) goal) :
    Prop where
  exhausted : search.last.stats.termination = some .frontierExhausted
  expanded : Enumerates (expandedNodes search.steps) fun p =>
    (programGraph g target).Reachable p ∧ p.filledCount ≤ search.policy.maxDepth
  tested : testAll goal (expandedNodes search.steps) search.state = (search.items, search.after)
  expansions : search.last.stats.expansions = (expandedNodes search.steps).length
  pruned : Enumerates (prunedNodes search.steps) fun p =>
    (programGraph g target).Reachable p ∧ p.filledCount = search.policy.maxDepth + 1
  depthPruned : search.last.stats.depthPruned = (prunedNodes search.steps).length
  duplicates : search.last.stats.duplicatesSuppressed = 0

/-- No two partial programs that a bounded search meets have one fingerprint. -/
theorem Policy.Explores.apart {policy : Policy} (explores : policy.Explores g target)
    (plain : g.NoHoleConstant) {limits : Limits} (bounded : limits.maxDepth = some policy.maxDepth)
    {steps : List (Step PartialProgram K)} {t : Traversal F PartialProgram}
    (ledger : t.Ledger (programGraph g target) limits policy.dedup steps) :
    Apart (programGraph g target) policy.dedup steps := by
  intro structural
  have free := explores.collisionFree structural
  refine (free.injOn_fingerprint plain fun p member => member.1).mono fun p here => ?_
  exact (Grammar.exists_walk_iff (· ≤ policy.maxDepth + 1)).1
    (ledger.walk_of_met explores.counted bounded here)

theorem BoundedCourse.isExact (search : BoundedCourse F (programGraph g target) goal)
    (plain : g.NoHoleConstant) (explores : search.policy.Explores g target) : search.IsExact := by
  obtain ⟨n, ended, expanded, pruned, verdicts, last⟩ := search.course.exists_rounds
  have first := search.begins.ledger
  have ledger := first.rounds n
  have exhausted := ledger.exhausted_of_ended explores.unlimited ended
  have apart := explores.apart plain rfl ledger
  have tree : (programGraph g target).IsTree := plain.isTree
  have distinct := first.nodup_expandedNodes tree n apart
  have met_distinct := ledger.nodup_met_of_nodup tree distinct
  have survey := ledger.survey tree explores.counted rfl exhausted apart met_distinct
  have nodes : expandedNodes search.steps = expandedNodes (search.start.rounds n).1 :=
    congrArg (List.map Entry.node) expanded
  have discarded : prunedNodes search.steps = prunedNodes (search.start.rounds n).1 :=
    congrArg (List.map Entry.node) pruned
  have all_distinct := survey.perm_met.nodup_iff.2 met_distinct
  exact {
    exhausted := by
      rw [last]
      exact exhausted
    expanded := by
      rw [nodes]
      exact ⟨distinct, fun p => survey.mem_expandedNodes.trans
        (Grammar.exists_walk_iff (· ≤ search.policy.maxDepth))⟩
    tested := by
      rw [nodes]
      exact verdicts
    expansions := by
      rw [last, nodes, expandedNodes, List.length_map]
      exact ledger.expansions_eq
    pruned := by
      rw [discarded]
      exact ⟨(List.nodup_append.1 all_distinct).2.1, fun p => survey.mem_prunedNodes.trans
        (Grammar.exists_walk_iff (· = search.policy.maxDepth + 1))⟩
    depthPruned := by
      rw [last, discarded, prunedNodes, List.length_map]
      exact ledger.depthPruned_eq
    duplicates := by
      have count := ledger.duplicates_eq
      rw [Traversal.Ledger.admitted_eq_of_nodup apart met_distinct] at count
      rw [last]
      show (search.start.rounds n).2.stats.duplicatesSuppressed = 0
      omega }

/-- The goals that an exact course hands out. -/
theorem BoundedCourse.IsExact.goal_mem {search : BoundedCourse F (programGraph g target) goal}
    (exact : search.IsExact) {answer : PartialProgram → Except E Bool}
    (answers : ∀ p state, ((goal p).run state).1 = answer p) {p : PartialProgram} :
    .goal p ∈ search.items ↔
      ((programGraph g target).Reachable p ∧ p.filledCount ≤ search.policy.maxDepth) ∧
        answer p = .ok true := by
  have tested := goal_mem_testAll answers (expandedNodes search.steps) search.state p
  rw [exact.tested] at tested
  rw [tested, exact.expanded.2 p]

omit [Frontier F PartialProgram K] [LawfulFrontier F PartialProgram K] in
/-- A best-first search without a bound on expansions has a course, whatever the costs are and
whether or not the cost function has a state. So has every search with the same bounds, however its
frontier chooses the next entry, and every course of any of them is exact: a cost function may answer
differently each time that it is asked. If the goal predicate answers as a function of the partial
program, the programs that are goals depend neither on the costs, nor on whether duplicates are
suppressed, nor on the order in which the productions are declared. -/
theorem bestFirst_explores_programs (plain : g.NoHoleConstant)
    (goal : PartialProgram → StateM σ (Except E Bool)) :
    (∀ (costs : Costs PartialProgram) (policy : Policy) (state : σ), policy.Explores g target →
      ∃ search : BestFirstCourse (programGraph g target) goal,
        search.costs = costs ∧ search.policy = policy ∧ search.state = state) ∧
    (∀ {S : Type} (cost : S → PartialProgram → Binary64 × S) (first : S) (policy : Policy)
      (state : σ), policy.Explores g target →
      ∃ search : BoundedCourse (Stateful S PartialProgram) (programGraph g target) goal,
        bestFirstBy (programGraph g target) cost first policy = .ok search.start ∧
          search.policy = policy ∧ search.state = state) ∧
    (∀ {F K : Type} [Frontier F PartialProgram K] [LawfulFrontier F PartialProgram K]
      (start : Traversal F PartialProgram) (policy : Policy) (state : σ),
      start.Begins (programGraph g target) policy → policy.Explores g target →
      ∃ search : BoundedCourse F (programGraph g target) goal,
        search.start = start ∧ search.policy = policy ∧ search.state = state) ∧
    (∀ {F K : Type} [Frontier F PartialProgram K] [LawfulFrontier F PartialProgram K]
      (search : BoundedCourse F (programGraph g target) goal),
      search.policy.Explores g target → search.IsExact) ∧
    (∀ answer : PartialProgram → Except E Bool,
      (∀ p state, ((goal p).run state).1 = answer p) →
      ∀ g' : Grammar V, g'.productions.Perm g.productions →
      ∀ {F K F' K' : Type} [Frontier F PartialProgram K] [LawfulFrontier F PartialProgram K]
        [Frontier F' PartialProgram K'] [LawfulFrontier F' PartialProgram K']
        (search : BoundedCourse F (programGraph g target) goal)
        (other : BoundedCourse F' (programGraph g' target) goal),
        search.policy.Explores g target → other.policy.Explores g' target →
        other.policy.maxDepth = search.policy.maxDepth →
        ∀ program, (∃ p, .goal p ∈ search.items ∧ p.program = program) ↔
          ∃ p, .goal p ∈ other.items ∧ p.program = program) := by
  refine ⟨?_, ?_, ?_, fun search explores => search.isExact plain explores, ?_⟩
  · intro costs policy state explores
    obtain ⟨start, begun⟩ := exists_bestFirst (programGraph g target) costs
      (Policy.validate_of_unlimited explores.unlimited)
    obtain ⟨search, rfl, rfl, rfl⟩ :=
      (begins_of_bestFirst begun).exists_course explores.counted goal state
    exact ⟨⟨costs, search.policy, search.start, begun, search.state, search.items, search.steps,
      search.last, search.after, search.course⟩, rfl, rfl, rfl⟩
  · intro S cost first policy state explores
    obtain ⟨start, begun, begins⟩ := exists_bestFirstBy (programGraph g target) cost first
      (Policy.validate_of_unlimited explores.unlimited)
    obtain ⟨search, rfl, bounds, from_state⟩ := begins.exists_course explores.counted goal state
    exact ⟨search, begun, bounds, from_state⟩
  · intro F K _ _ start policy state begins explores
    exact begins.exists_course explores.counted goal state
  · intro answer answers g' perm F K F' K' _ _ _ _ search other explores explores' bound program
    have same : ∀ p, .goal p ∈ search.items ↔ .goal p ∈ other.items := by
      intro p
      rw [(search.isExact plain explores).goal_mem answers,
        (other.isExact (plain.of_perm perm) explores').goal_mem answers,
        Grammar.reachable_iff_of_perm perm, bound]
    simp only [same]

/-- A cost function that answers zero and one in turn. -/
def alternate (odd : Bool) (_ : PartialProgram) : Binary64 × Bool :=
  (if odd then .ofNat 1 else .zero, !odd)

/-- Sums of ones of at most three productions are explored if duplicates are kept, and bits if they
are suppressed, even at costs that change from one partial program to the next. -/
theorem Sample.sums_explored :
    (∃ search : BestFirstCourse (programGraph Sample.sums ⟨Sample.int, .empty⟩) Goal.complete,
      search.policy = ⟨3, none, .off⟩ ∧ search.bounded.IsExact) ∧
    ∃ search : BoundedCourse (Stateful Bool PartialProgram)
        (programGraph Sample.bits ⟨Sample.int, .empty⟩) Goal.complete,
      bestFirstBy (programGraph Sample.bits ⟨Sample.int, .empty⟩) alternate false
          ⟨3, none, .structural⟩ = .ok search.start ∧
        search.policy = ⟨3, none, .structural⟩ ∧ search.IsExact := by
  constructor
  · have explores : (⟨3, none, .off⟩ : Policy).Explores Sample.sums ⟨Sample.int, .empty⟩ :=
      ⟨rfl, by decide, fun structural => by cases structural⟩
    obtain ⟨courses, -, -, exact_courses, -⟩ := @bestFirst_explores_programs _ _ _ _
      ⟨Sample.int, .empty⟩ Sample.noHoleConstant_sums Goal.complete
    obtain ⟨search, -, policy, -⟩ := courses (.direct fun _ => .zero) ⟨3, none, .off⟩ 0 explores
    rw [← policy] at explores
    exact ⟨search, policy, exact_courses search.bounded explores⟩
  · have explores : (⟨3, none, .structural⟩ : Policy).Explores Sample.bits ⟨Sample.int, .empty⟩ :=
      ⟨rfl, by decide, fun _ => Sample.collisionFree_bits fun p here => here.1⟩
    obtain ⟨-, courses, -, exact_courses, -⟩ := @bestFirst_explores_programs _ _ _ _
      ⟨Sample.int, .empty⟩ Sample.noHoleConstant_bits Goal.complete
    obtain ⟨search, begun, policy, -⟩ := courses alternate false ⟨3, none, .structural⟩ 0 explores
    exact ⟨search, begun, policy, exact_courses search (by rw [policy]; exact explores)⟩

end GrammarSearch
