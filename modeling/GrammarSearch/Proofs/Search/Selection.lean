import GrammarSearch.Proofs.Search.Budget
import GrammarSearch.Proofs.Search.Course
import GrammarSearch.Proofs.Search.Ledger
import Mathlib.Data.Seq.Basic
import Mathlib.Order.Lattice.Nat

/-!
# What a goal and a budget select

A search expands a sequence of nodes, finite or infinite, that depends neither on
what it looks for nor on its budget: `Traversal.expansions`. A budget cuts the
sequence, and a goal predicate picks from what is left (`Traversal.Follows`).
-/

namespace GrammarSearch

open LawfulFrontier

variable {F N K : Type} [Frontier F N K] {t : Traversal F N}

/-! ## The sequence of expansions -/

/-- The node of an expansion is known as soon as it has taken place. -/
theorem Traversal.getElem?_expandedNodes {m n i : Nat}
    (early : i < (expandedNodes (t.rounds m).1).length)
    (late : i < (expandedNodes (t.rounds n).1).length) :
    (expandedNodes (t.rounds m).1)[i]? = (expandedNodes (t.rounds n).1)[i]? := by
  rcases Nat.le_total m n with le | le
  · obtain ⟨more, longer⟩ := expandedNodes_mono (Traversal.rounds_prefix (t := t) le)
    rw [← longer, List.getElem?_append_left early]
  · obtain ⟨more, longer⟩ := expandedNodes_mono (Traversal.rounds_prefix (t := t) le)
    rw [← longer, List.getElem?_append_left late]

open Classical in
/-- The nodes that a search expands if it may go on for ever, in order. -/
noncomputable def Traversal.expansions (t : Traversal F N) : Stream'.Seq N where
  val i :=
    if enough : ∃ n, i < (expandedNodes (t.rounds n).1).length then
      (expandedNodes (t.rounds enough.choose).1)[i]?
    else none
  property := by
    intro i nothing
    apply dif_neg
    intro later
    have enough : ∃ n, i < (expandedNodes (t.rounds n).1).length :=
      later.imp fun n here => Nat.lt_of_succ_lt here
    have found := (dif_pos enough).symm.trans nothing
    rw [List.getElem?_eq_getElem enough.choose_spec] at found
    cases found

theorem Traversal.get?_expansions {n i : Nat}
    (here : i < (expandedNodes (t.rounds n).1).length) :
    t.expansions.get? i = (expandedNodes (t.rounds n).1)[i]? := by
  have enough : ∃ n, i < (expandedNodes (t.rounds n).1).length := ⟨n, here⟩
  exact (dif_pos enough).trans (Traversal.getElem?_expandedNodes enough.choose_spec here)

/-- The sequence ends where the search stops expanding nodes. -/
theorem Traversal.terminatedAt_expansions {m : Nat} :
    t.expansions.TerminatedAt m ↔ ∀ n, (expandedNodes (t.rounds n).1).length ≤ m := by
  constructor
  · intro terminated n
    by_contra more
    have here := Nat.lt_of_not_le more
    rw [Stream'.Seq.TerminatedAt, Traversal.get?_expansions here,
      List.getElem?_eq_getElem here] at terminated
    cases terminated
  · intro few
    apply dif_neg
    rintro ⟨n, here⟩
    exact absurd (few n) (Nat.not_le_of_lt here)

/-- What some rounds expand is a beginning of the sequence. -/
theorem Traversal.take_expansions {n : Nat} {nodes : List N}
    (among : nodes <+: expandedNodes (t.rounds n).1) :
    t.expansions.take nodes.length = nodes := by
  apply List.ext_getElem?
  intro i
  rw [Stream'.Seq.getElem?_take]
  split
  · next here =>
    rcases among with ⟨more, longer⟩
    rw [Traversal.get?_expansions (n := n), ← longer, List.getElem?_append_left here]
    rw [← longer, List.length_append]
    omega
  · next beyond => rw [List.getElem?_eq_none (Nat.le_of_not_lt beyond)]

/-- A search that has ended has expanded the whole sequence. -/
theorem Traversal.terminatedAt_of_ended {n : Nat} (ended : (t.rounds n).2.ended = true) :
    t.expansions.TerminatedAt (expandedNodes (t.rounds n).1).length := by
  apply Traversal.terminatedAt_expansions.2
  intro k
  rcases Nat.le_total n k with le | le
  · rw [Traversal.rounds_eq_of_ended ended le]
  · exact (expandedNodes_mono (Traversal.rounds_prefix le)).length_le

/-- Nodes are expanded one by one. -/
theorem Traversal.exists_length_expandedNodes {m n : Nat}
    (enough : m ≤ (expandedNodes (t.rounds n).1).length) :
    ∃ k, (expandedNodes (t.rounds k).1).length = m := by
  induction n with
  | zero => exact ⟨0, (Nat.le_zero.1 enough).symm⟩
  | succ n ih =>
    have one : (expandedNodes (t.rounds (n + 1)).1).length ≤
        (expandedNodes (t.rounds n).1).length + 1 := by
      rw [Traversal.rounds_add, expandedNodes_append, List.length_append]
      exact Nat.add_le_add_left (Traversal.length_expandedNodes_le (t := (t.rounds n).2) 1) _
    by_cases before : m ≤ (expandedNodes (t.rounds n).1).length
    · exact ih before
    · exact ⟨n + 1, by omega⟩

omit [Frontier F N K] in
/-- Where a sequence has ended, more of it is no more. -/
theorem take_of_terminatedAt {sequence : Stream'.Seq N} {m n : Nat}
    (terminated : sequence.TerminatedAt m) (le : m ≤ n) : sequence.take n = sequence.take m := by
  apply List.ext_getElem?
  intro i
  rw [Stream'.Seq.getElem?_take, Stream'.Seq.getElem?_take]
  rcases Nat.lt_or_ge i m with before | after
  · rw [if_pos before, if_pos (Nat.lt_of_lt_of_le before le)]
  · rw [if_neg (Nat.not_lt_of_le after), sequence.le_stable after terminated, ite_self]

/-! ## Searches that stop expanding -/

section Stopping

variable [Fingerprinted N] [LawfulFrontier F N K] {graph : Graph N} {limits : Limits}
  {dedup : Dedup}

/-- A search takes no more entries out of its frontier than it was offered. -/
theorem Traversal.Ledger.length_entries_le {steps : List (Step N K)}
    (ledger : t.Ledger graph limits dedup steps) :
    (expandedEntries steps).length + (prunedEntries steps).length ≤
      (offers graph steps).length := by
  have accounts := congrArg Multiset.card ledger.places_eq
  simp only [Multiset.card_add, Multiset.coe_card, List.length_map] at accounts
  have admitted := (Visited.admitted_sublist (.empty dedup) (offers graph steps)).length_le
  omega

omit [Fingerprinted N] [LawfulFrontier F N K] in
/-- Of boundedly many expansions one is the last. -/
theorem Traversal.exists_last_expansion {m : Nat}
    (few : ∀ n, (expandedNodes (t.rounds n).1).length ≤ m) :
    ∃ last, ∀ n, (expandedNodes (t.rounds n).1).length ≤
      (expandedNodes (t.rounds last).1).length := by
  have bounded : BddAbove (Set.range fun n => (expandedNodes (t.rounds n).1).length) :=
    ⟨m, Set.forall_mem_range.2 few⟩
  obtain ⟨last, top⟩ := Nat.sSup_mem (Set.range_nonempty _) bounded
  exact ⟨last, fun n => (le_csSup bounded ⟨n, rfl⟩).trans_eq top.symm⟩

/-- A search that expands no further nodes ends: it can only discard those it has. -/
theorem Traversal.Ledger.exists_ended (ledger : t.Ledger graph limits dedup []) {m : Nat}
    (few : ∀ n, (expandedNodes (t.rounds n).1).length ≤ m) : ∃ n, (t.rounds n).2.ended = true := by
  by_contra endless
  obtain ⟨last, most⟩ := Traversal.exists_last_expansion few
  -- After the last expansion every round discards an entry, and there are only so many.
  let late := last + (offers graph (t.rounds last).1).length + 1
  obtain ⟨more, longer⟩ := Traversal.rounds_prefix (t := t) (m := last) (n := late) (by omega)
  have same : expandedEntries (t.rounds late).1 = expandedEntries (t.rounds last).1 := by
    have le := most late
    rw [← longer, expandedNodes_append, expandedNodes, expandedNodes, List.length_append,
      List.length_map, List.length_map] at le
    rw [← longer, expandedEntries_append]
    exact List.append_right_eq_self.2 (List.length_eq_zero_iff.1 (by omega))
  have live : (t.rounds late).2.ended = false :=
    Bool.eq_false_iff.2 fun ended => endless ⟨late, ended⟩
  have taken := Traversal.length_entries_of_live live
  have held := (ledger.rounds late).length_entries_le
  rw [offers, same, ← offers] at held
  rw [same] at taken
  omega

/-- A search comes to every beginning of its sequence, and if the sequence ends there, to its
end. -/
theorem Traversal.Ledger.exists_rounds_take (ledger : t.Ledger graph limits dedup []) (m : Nat) :
    ∃ n, expandedNodes (t.rounds n).1 = t.expansions.take m ∧
      (t.expansions.TerminatedAt m → (t.rounds n).2.ended = true) := by
  cases stops : t.expansions.get? m with
  | none =>
    have few := Traversal.terminatedAt_expansions.1 stops
    obtain ⟨n, ended⟩ := ledger.exists_ended few
    refine ⟨n, ?_, fun _ => ended⟩
    rw [take_of_terminatedAt (Traversal.terminatedAt_of_ended ended) (few n),
      Traversal.take_expansions List.prefix_rfl]
  | some node =>
    have goes_on : ¬t.expansions.TerminatedAt m := by
      rw [Stream'.Seq.TerminatedAt, stops]
      exact Option.some_ne_none node
    obtain ⟨later, more⟩ := not_forall.1 (mt Traversal.terminatedAt_expansions.2 goes_on)
    obtain ⟨n, reached⟩ := Traversal.exists_length_expandedNodes (Nat.le_of_not_le more)
    refine ⟨n, ?_, fun terminated => absurd terminated goes_on⟩
    rw [← reached, Traversal.take_expansions List.prefix_rfl]

end Stopping

/-! ## Budgets -/

/-- A search expands the sequence, cut to the budget, and tells whether it was cut. -/
structure Traversal.Expands (t : Traversal F N) (sequence : Stream'.Seq N)
    (budget : Option Nat) : Prop where
  begins : ∀ n, ∃ m, (∀ bound ∈ budget, m ≤ bound) ∧
    expandedNodes (t.rounds n).1 = sequence.take m ∧
    ((t.rounds n).2.ended = true → budget = some m ∨ sequence.TerminatedAt m)
  reaches : ∀ m, (∀ bound ∈ budget, m ≤ bound) → ∃ n,
    expandedNodes (t.rounds n).1 = sequence.take m ∧
    (budget = some m ∨ sequence.TerminatedAt m → (t.rounds n).2.ended = true)
  reports : ∀ n, (t.rounds n).2.ended = true →
    ((t.rounds n).2.stats.termination = some .expansionBudgetExceeded ↔
      ∃ bound ∈ budget, (sequence.take bound).length = bound)

omit [Frontier F N K] in
/-- A sequence that has not ended has as many elements. -/
theorem length_take_of_not_terminatedAt {sequence : Stream'.Seq N} {m : Nat}
    (goes_on : ¬sequence.TerminatedAt m) : (sequence.take m).length = m := by
  apply Nat.le_antisymm Stream'.Seq.length_take_le
  by_contra few
  have short := Nat.lt_of_not_le few
  have none := Stream'.Seq.getElem?_take (sequence.take m).length m sequence
  rw [if_pos short, List.getElem?_eq_none (Nat.le_refl _)] at none
  exact goes_on (sequence.le_stable short.le none.symm)

/-- A search with a budget expands what it would expand without one, cut to the budget. -/
theorem Traversal.Expands.withBudget [Fingerprinted N] [LawfulFrontier F N K] {graph : Graph N}
    {limits : Limits} {dedup : Dedup} (ledger : t.Ledger graph limits dedup [])
    (unlimited : t.limits.maxExpansions = none) (fresh : t.stats = .initial)
    (budget : Option Nat) : (t.withBudget budget).Expands t.expansions budget where
  begins n := by
    rcases Traversal.cutAt_rounds budget unlimited fresh n with
      ⟨same, left, within, -, -⟩ | ⟨bound, given, reached, among, -⟩
    · refine ⟨_, within, ?_, fun ended => .inr ?_⟩ <;> rw [same]
      · rw [Traversal.take_expansions List.prefix_rfl]
      · rw [left] at ended
        exact Traversal.terminatedAt_of_ended ended
    · refine ⟨bound, ?_, ?_, fun _ => .inl given⟩
      · rw [given]
        intro _ member
        cases member
        exact Nat.le_refl _
      · rw [← reached, Traversal.take_expansions among]
  reaches m within := by
    obtain ⟨n, here, all⟩ := ledger.exists_rounds_take m
    rcases Traversal.cutAt_rounds budget unlimited fresh n with
      ⟨same, left, -, -, -⟩ | ⟨bound, given, reached, among, reason⟩
    · by_cases terminated : t.expansions.TerminatedAt m
      · refine ⟨n, by rw [same, here], fun _ => ?_⟩
        rw [left]
        exact all terminated
      · by_cases spent : budget = some m
        · have full : (t.withBudget budget).limits.maxExpansions =
              some (expandedNodes ((t.withBudget budget).rounds n).1).length := by
            rw [same, here, length_take_of_not_terminatedAt terminated, ← spent]
            rfl
          have unused : (t.withBudget budget).stats.expansions = 0 :=
            congrArg Stats.expansions fresh
          obtain ⟨nothing, ended⟩ := Traversal.rounds_succ_of_spent unused full
          exact ⟨n + 1, by rw [nothing, same, here], fun _ => ended⟩
        · exact ⟨n, by rw [same, here], fun either => absurd either (not_or.2 ⟨spent, terminated⟩)⟩
    · refine ⟨n, ?_, fun _ => by rw [Traversal.ended, reason]; rfl⟩
      rw [here] at among
      apply among.eq_of_length_le
      rw [reached]
      exact Nat.le_trans Stream'.Seq.length_take_le (within bound given)
  reports n ended := by
    rcases Traversal.cutAt_rounds budget unlimited fresh n with
      ⟨same, left, within, unstopped, room⟩ | ⟨bound, given, reached, among, reason⟩
    · rw [left] at ended ⊢
      refine ⟨fun stopped => absurd stopped unstopped, ?_⟩
      rintro ⟨bound, given, enough⟩
      have few := room ended bound given
      rw [same] at few
      rw [take_of_terminatedAt (Traversal.terminatedAt_of_ended ended) few.le,
        Traversal.take_expansions List.prefix_rfl] at enough
      omega
    · refine ⟨fun _ => ⟨bound, given, ?_⟩, fun _ => reason⟩
      rw [← reached, Traversal.take_expansions among]

/-! ## Goals -/

/-- A search that looks for goals expands the sequence, cut to the budget. -/
structure Traversal.Follows {E σ : Type} (goal : N → StateM σ (Except E Bool)) (t : Traversal F N)
    (state : σ) (sequence : Stream'.Seq N) (budget : Option Nat) : Prop where
  /-- The items handed out are the verdicts on the first nodes, in order, and on all nodes that
  the budget leaves once the search has ended. If the answers of the predicate do not depend on
  its state, the items are those of the nodes it accepts or fails at. -/
  selects : ∀ {items steps last after}, t.Pulled goal state items steps last after →
    ∃ m, (∀ bound ∈ budget, m ≤ bound) ∧ expandedNodes steps = sequence.take m ∧
      testAll goal (sequence.take m) state = (items, after) ∧
      (∀ answer, (∀ node state, ((goal node).run state).1 = answer node) →
        items = (sequence.take m).filterMap (Item.ofAnswer? answer)) ∧
      (last.ended = true → budget = some m ∨ sequence.TerminatedAt m)
  /-- Every node that the budget leaves is tested in time, and then the search ends. -/
  completes : ∀ m, (∀ bound ∈ budget, m ≤ bound) →
    ∃ items steps last after, t.Pulled goal state items steps last after ∧
      expandedNodes steps = sequence.take m ∧
      testAll goal (sequence.take m) state = (items, after) ∧
      (budget = some m ∨ sequence.TerminatedAt m → last.ended = true)
  /-- Items leave no trace in the search, apart from the count of goals. -/
  undisturbed : ∀ {items steps last after}, t.Pulled goal state items steps last after →
    ∃ n, SameEntries steps (t.rounds n).1 ∧
      last = (t.rounds n).2.addGoals (items.map Item.goals).sum
  /-- No item ends the search. -/
  goes_on : ∀ {items steps last after}, t.Pulled goal state items steps last after →
    ∀ rounds, (last.next goal rounds after).item ≠ .ended →
      (last.next goal rounds after).traversal.ended = false
  /-- A search that has ended stays as it is, whatever it is asked for. -/
  rests : ∀ {items steps last after}, t.Pulled goal state items steps last after →
    ∀ rounds, (last.next goal rounds after).item = .ended →
      ∀ (other : N → StateM σ (Except E Bool)) more later,
        (last.next goal rounds after).traversal.next other more later =
          ⟨.ended, [], (last.next goal rounds after).traversal, later⟩
  /-- A search that has ended tells whether its budget was reached. -/
  reports : ∀ {items steps last after}, t.Pulled goal state items steps last after →
    last.ended = true →
      (last.stats.termination = some .expansionBudgetExceeded ↔
        ∃ bound ∈ budget, (sequence.take bound).length = bound)

variable {E σ : Type}

/-- A pull ends a search exactly if it finds no item for want of nodes. -/
theorem Traversal.ended_next (goal : N → StateM σ (Except E Bool)) (t : Traversal F N)
    (rounds : Nat) (state : σ) :
    (t.next goal rounds state).traversal.ended = true ↔
      (t.next goal rounds state).item = .ended := by
  obtain ⟨n, advances⟩ := Traversal.exists_advances goal t state rounds
  rw [advances.traversal_eq, Traversal.ended_addGoals, advances.ended_iff]

/-- What a search expands does not depend on what it looks for. -/
theorem Traversal.Expands.follows {sequence : Stream'.Seq N} {budget : Option Nat}
    (expands : t.Expands sequence budget) (goal : N → StateM σ (Except E Bool)) (state : σ) :
    t.Follows goal state sequence budget where
  selects := by
    intro items steps last after pulled
    obtain ⟨n, same, verdicts, left⟩ := pulled.exists_rounds
    obtain ⟨m, within, nodes, all⟩ := expands.begins n
    rw [nodes] at verdicts
    refine ⟨m, within, same.expandedNodes_eq.trans nodes, verdicts, fun answer answers => ?_, ?_⟩
    · rw [← testAll_of_answers answers _ state, verdicts]
    · rw [left]
      exact all
  completes := by
    intro m within
    obtain ⟨n, nodes, all⟩ := expands.reaches m within
    obtain ⟨items, steps, last, after, pulled, same, ended⟩ :=
      Traversal.exists_pulled goal t state n
    have expanded := same.expandedNodes_eq.trans nodes
    obtain ⟨k, same', verdicts, -⟩ := pulled.exists_rounds
    rw [← same'.expandedNodes_eq, expanded] at verdicts
    refine ⟨items, steps, last, after, pulled, expanded, verdicts, ?_⟩
    rw [ended]
    exact all
  undisturbed := by
    intro items steps last after pulled
    obtain ⟨n, same, -, left⟩ := pulled.exists_rounds
    exact ⟨n, same, left⟩
  goes_on := by
    intro items steps last after _ rounds more
    rw [← Bool.not_eq_true, Traversal.ended_next]
    exact more
  rests := by
    intro items steps last after _ rounds ended other more later
    exact Traversal.next_of_ended ((Traversal.ended_next goal last rounds after).2 ended) more
  reports := by
    intro items steps last after pulled ended
    obtain ⟨n, -, -, left⟩ := pulled.exists_rounds
    rw [left] at ended ⊢
    exact expands.reports n ended

/-! ## The two searches -/

/-- Every search expands one sequence of nodes, whatever it looks for and whatever its budget is:
the budget cuts the sequence, and the goal predicate selects from the rest. -/
theorem searches_follow_expansions [Fingerprinted N] (graph : Graph N) (dedup : Dedup) :
    (∃ sequence, ∀ maxDepth budget, budget ≠ some 0 →
      ∃ start, breadthFirst graph ⟨maxDepth, budget, dedup⟩ = .ok start ∧
        ∀ (E σ : Type) (goal : N → StateM σ (Except E Bool)) (state : σ),
          start.Follows goal state sequence budget) ∧
    ∀ (costs : Costs N) (maxDepth : Nat), ∃ sequence, ∀ budget, budget ≠ some 0 →
      ∃ start, bestFirst graph costs ⟨maxDepth, budget, dedup⟩ = .ok start ∧
        ∀ (E σ : Type) (goal : N → StateM σ (Except E Bool)) (state : σ),
          start.Follows goal state sequence budget := by
  constructor
  · obtain ⟨free, begun⟩ : ∃ free, breadthFirst graph ⟨0, none, dedup⟩ = .ok free :=
      exists_breadthFirst graph (Policy.validate_of_unlimited rfl)
    refine ⟨free.expansions, fun maxDepth budget positive => ?_⟩
    obtain ⟨start, begun'⟩ : ∃ start, breadthFirst graph ⟨maxDepth, budget, dedup⟩ = .ok start :=
      exists_breadthFirst graph (Policy.validate_of_ne_zero positive)
    refine ⟨start, begun', fun E σ goal state => ?_⟩
    have cut : start = free.withBudget budget := by
      rw [eq_of_breadthFirst begun, eq_of_breadthFirst begun']
      rfl
    rw [cut]
    apply Traversal.Expands.follows
    apply Traversal.Expands.withBudget (Traversal.Ledger.of_breadthFirst begun) <;>
      rw [eq_of_breadthFirst begun]
  · intro costs maxDepth
    obtain ⟨free, begun⟩ : ∃ free, bestFirst graph costs ⟨maxDepth, none, dedup⟩ = .ok free :=
      exists_bestFirst graph costs (Policy.validate_of_unlimited rfl)
    refine ⟨free.expansions, fun budget positive => ?_⟩
    obtain ⟨start, begun'⟩ :
        ∃ start, bestFirst graph costs ⟨maxDepth, budget, dedup⟩ = .ok start :=
      exists_bestFirst graph costs (Policy.validate_of_ne_zero positive)
    refine ⟨start, begun', fun E σ goal state => ?_⟩
    have cut : start = free.withBudget budget := by
      rw [eq_of_bestFirst begun, eq_of_bestFirst begun']
      rfl
    rw [cut]
    apply Traversal.Expands.follows
    apply Traversal.Expands.withBudget (Traversal.Ledger.of_bestFirst begun) <;>
      rw [eq_of_bestFirst begun]

end GrammarSearch
