import GrammarSearch.Proofs.Search.Bounded
import GrammarSearch.Proofs.Search.CostOrder
import GrammarSearch.Proofs.Search.LevelOrder
import Mathlib.Data.List.TakeWhile

/-!
# Best-first search at constant cost

If all nodes cost the same, a best-first search takes its entries in the order
of discovery, as a breadth-first search does. The two differ only in that the
one discards what is deeper than its bound, and this comes last: a breadth-first
search finds deeper nodes later (`breadthFirst_ascending`). So they run
alongside until the first node beyond the bound, from which on the best-first
search discards all that it has left (`bestFirst_alongside`). What it expands
and hands out is what a breadth-first search does before that node.
-/

namespace GrammarSearch

variable {N E σ : Type}

/-! ## Prefixes -/

/-- What comes in order and before the rest comes first when all is in order. -/
theorem prefix_of_perm_of_sorted {α : Type} {r : α → α → Prop}
    (asymmetric : ∀ a b, r a b → ¬r b a) {first rest all : List α}
    (perm : (first ++ rest).Perm all) (sorted : first.Pairwise r)
    (below : ∀ a ∈ first, ∀ b ∈ rest, r a b) (ordered : all.Pairwise r) : first <+: all := by
  induction first generalizing all with
  | nil => exact List.nil_prefix
  | cons a first ih =>
    cases all with
    | nil => exact absurd perm.length_eq (by simp)
    | cons b all =>
      obtain ⟨before, sortedTail⟩ := List.pairwise_cons.1 sorted
      obtain ⟨least, orderedTail⟩ := List.pairwise_cons.1 ordered
      have same : a = b := by
        rcases List.mem_cons.1 (perm.mem_iff.2 List.mem_cons_self) with same | later
        · exact same.symm
        · -- Otherwise `b` would come after `a` in the one list and before it in the other.
          have less : r a b := by
            rcases List.mem_append.1 later with early | late
            · exact before b early
            · exact below a List.mem_cons_self b late
          rcases List.mem_cons.1 (perm.mem_iff.1 List.mem_cons_self) with same | among
          · exact same
          · exact absurd (least a among) (asymmetric a b less)
      subst same
      exact (List.prefix_cons_inj a).2 (ih perm.cons_inv sortedTail
        (fun c member => below c (List.mem_cons_of_mem _ member)) orderedTail)

theorem takeWhile_prefix_takeWhile {α : Type} (p : α → Bool) {first all : List α}
    (among : first <+: all) : first.takeWhile p <+: all.takeWhile p := by
  rcases among with ⟨more, rfl⟩
  rw [List.takeWhile_append]
  split
  · exact (List.takeWhile_prefix p).trans (List.prefix_append _ _)
  · exact List.prefix_rfl

/-- What comes after an element that fails is not looked at. -/
theorem takeWhile_eq_of_prefix {α : Type} {p : α → Bool} {first all : List α}
    (among : first <+: all) {a : α} (member : a ∈ first) (fails : p a = false) :
    all.takeWhile p = first.takeWhile p := by
  rcases among with ⟨more, rfl⟩
  rw [List.takeWhile_append, if_neg]
  intro whole
  have passes := List.all_takeWhile (p := p) (l := first)
  rw [(List.takeWhile_prefix p).eq_of_length whole, List.all_eq_true] at passes
  rw [passes a member] at fails
  cases fails

/-- The places that come before the first one beyond the bound. -/
def placesWithin (bound : Nat) (places : List (N × Nat)) : List (N × Nat) :=
  places.takeWhile (·.2 ≤ bound)

/-! ## Constant costs -/

theorem Graph.ascends_of_constant (graph : Graph N) (c : Binary64) : graph.Ascends fun _ => c := by
  intro node child _ _
  rw [Ne, Binary64.compare_eq_lt]
  exact Nat.lt_irrefl _

/-- At constant cost keys are in the order of discovery. -/
theorem numbered_sorted (c : Binary64) (places : List (N × Nat)) :
    (numbered (fun _ => c) places).Pairwise Entry.Before := by
  have orders := List.pairwise_lt_range (n := places.length)
  rw [← map_order_numbered fun _ => c, List.pairwise_map] at orders
  refine orders.imp_of_mem fun {a b} memberA memberB less => ?_
  rw [Entry.before_iff, (mem_numbered.1 memberA).1, (mem_numbered.1 memberB).1]
  exact .inr ⟨rfl, less⟩

variable [Fingerprinted N] {c : Binary64}

/-- What came out of the frontier is followed by what is in it, in the order of discovery. -/
theorem Costed.Queued.exists_rest {f : Costed N} {popped : List (Entry N Key)}
    {places : List (N × Nat)} (queued : f.Queued (fun _ => c) popped places) :
    ∃ rest, popped.map Entry.place ++ rest = places ∧ rest.Perm f.held := by
  have asymmetric (a b : Entry N Key) (before : a.Before b) : ¬b.Before a := by
    rw [Entry.before_iff] at before ⊢
    omega
  obtain ⟨rest, whole⟩ := prefix_of_perm_of_sorted asymmetric queued.perm queued.sorted queued.below
    (numbered_sorted c places)
  have held := queued.perm
  rw [← whole, List.perm_append_left_iff] at held
  refine ⟨rest.map Entry.place, ?_, (held.map Entry.place).symm⟩
  rw [← List.map_append, whole, map_place_numbered]

/-- Nothing comes out of the frontier only if all came out. -/
theorem Costed.Queued.eq_nil_of_pop? {f : Costed N} {popped : List (Entry N Key)}
    {line : List (N × Nat)} (queued : f.Queued (fun _ => c) popped (popped.map Entry.place ++ line))
    (none : Frontier.pop? f = none) : line = [] := by
  obtain ⟨rest, whole, held⟩ := queued.exists_rest
  rw [Costed.held_of_pop?_eq_none none, List.perm_nil] at held
  rw [← List.append_cancel_left whole, held]

/-- What comes out of the frontier is the next in the order of discovery. -/
theorem Costed.Queued.eq_cons_of_pop? {f left : Costed N} {popped : List (Entry N Key)}
    {line : List (N × Nat)} (queued : f.Queued (fun _ => c) popped (popped.map Entry.place ++ line))
    {entry : Entry N Key} (taken : Frontier.pop? f = some (entry, left)) :
    ∃ rest, line = entry.place :: rest ∧ rest.Perm left.held := by
  obtain ⟨rest, whole, held⟩ := (queued.of_pop? taken).exists_rest
  rw [List.map_append, List.append_assoc] at whole
  exact ⟨rest, (List.append_cancel_left whole).symm, held⟩

/-! ## Rounds of a breadth-first search -/

omit [Fingerprinted N] in
theorem Fifo.pop?_of_line_eq_nil {f : Fifo N} (empty : f.line = []) : f.pop? = none := by
  cases popped : f.pop? with
  | none => rfl
  | some taken =>
    rw [(Fifo.line_of_pop? popped).1] at empty
    cases empty

omit [Fingerprinted N] in
theorem Fifo.pop?_of_line_eq_cons {f : Fifo N} {place : N × Nat} {rest : List (N × Nat)}
    (next : f.line = place :: rest) :
    ∃ entry left, f.pop? = some (entry, left) ∧ entry.place = place := by
  cases popped : f.pop? with
  | none =>
    rw [Fifo.line_of_pop?_eq_none popped] at next
    cases next
  | some taken =>
    rw [(Fifo.line_of_pop? popped).1] at next
    exact ⟨taken.1, taken.2, rfl, (List.cons.inj next).1⟩

variable {graph : Graph N} {policy : Policy} {costs : Costs N}
  {best : Traversal (Costed N) N} {first : Traversal (Fifo N) N}

/-- A breadth-first search expands deeper nodes later. -/
theorem breadthFirst_ascending (begun : breadthFirst graph policy = .ok first) (n : Nat) :
    ((expandedEntries (first.rounds n).1).map Entry.place).Pairwise fun a b => a.2 ≤ b.2 := by
  induction n with
  | zero => exact .nil
  | succ n ih =>
    have among := (breadthFirst_prefix_succ begun n).sublist.trans (Visited.admitted_sublist _ _)
    exact (offers_ascending graph ih).sublist among

/-- What is left to expand is in the order of depths, too. -/
theorem breadthFirst_line_ascending (begun : breadthFirst graph policy = .ok first) (n : Nat) :
    (first.rounds n).2.frontier.line.Pairwise fun a b => a.2 ≤ b.2 := by
  have all := (offers_ascending graph (breadthFirst_ascending begun n)).sublist
    ((Visited.empty policy.dedup).admitted_sublist _)
  rw [← breadthFirst_order begun n] at all
  exact (List.pairwise_append.1 all).2.1

/-! ## Both searches together -/

/-- How far two searches have come after equally many rounds: a best-first search with this bound and
a breadth-first search. -/
inductive Alongside (bound : Nat) (steps : List (Step N Key)) (best : Traversal (Costed N) N)
    (others : List (Step N Unit)) (first : Traversal (Fifo N) N) : Prop
  /-- Nothing was discarded, and the same was expanded. -/
  | together (nothing : prunedEntries steps = [])
    (same : (expandedEntries steps).map Entry.place = (expandedEntries others).map Entry.place)
    (ended : best.ended = first.ended)
  /-- The breadth-first search went on to a place beyond the bound, and the other has nothing left
  within it. -/
  | parted (place : N × Nat) (rest : List (N × Nat)) (beyond : bound < place.2)
    (ahead : (expandedEntries others).map Entry.place =
      (expandedEntries steps).map Entry.place ++ place :: rest)
    (deep : ∀ left ∈ best.frontier.held, bound < left.2)

/-- A search with nothing left within its bound expands nothing more. -/
theorem held_deep_of_step {t : Traversal (Costed N) N} {bound : Nat}
    (bounded : t.limits.maxDepth = some bound) (deep : ∀ left ∈ t.frontier.held, bound < left.2) :
    expandedEntries [t.step.1] = [] ∧ ∀ left ∈ t.step.2.frontier.held, bound < left.2 := by
  rcases t.step_outcome with ⟨reason, step⟩ | ⟨entry, frontier, popped, -, step⟩ |
    ⟨entry, frontier, popped, kept, -⟩
  · rw [step]
    exact ⟨rfl, deep⟩
  · rw [step]
    refine ⟨rfl, fun left member => deep left ?_⟩
    exact (Costed.held_of_pop? popped).1.mem_iff.2 (List.mem_cons_of_mem _ member)
  · have here := deep _ ((Costed.held_of_pop? popped).1.mem_iff.2 List.mem_cons_self)
    rw [Limits.prunes_eq bounded, decide_eq_false_iff_not] at kept
    exact absurd here kept

section Rounds

variable (bestBegun : bestFirst graph costs policy = .ok best)
  (firstBegun : breadthFirst graph policy = .ok first) (constant : costs.Computes fun _ => c)

include bestBegun firstBegun constant

/-- Where the same was expanded, the queue of the one search holds what the other has left. -/
theorem queued_of_same {n : Nat} (nothing : prunedEntries (best.rounds n).1 = [])
    (same : (expandedEntries (best.rounds n).1).map Entry.place =
      (expandedEntries (first.rounds n).1).map Entry.place) :
    (best.rounds n).2.frontier.Queued (fun _ => c) (expandedEntries (best.rounds n).1)
      ((expandedEntries (best.rounds n).1).map Entry.place ++ (first.rounds n).2.frontier.line) := by
  have queued := bestFirst_queued bestBegun constant (graph.ascends_of_constant c) n
  have offered : offers graph (best.rounds n).1 = offers graph (first.rounds n).1 := by
    rw [offers_eq_of_places same, offers_eq_of_places rfl]
  rw [discovered, offered, ← breadthFirst_order firstBegun n, ← same,
    poppedEntries_eq_of_unpruned nothing] at queued
  exact queued

/-- The next round of two searches that have expanded the same. -/
theorem alongside_of_same {n : Nat} (nothing : prunedEntries (best.rounds n).1 = [])
    (same : (expandedEntries (best.rounds n).1).map Entry.place =
      (expandedEntries (first.rounds n).1).map Entry.place)
    (live : (best.rounds n).2.ended = false) (live' : (first.rounds n).2.ended = false) :
    Alongside policy.maxDepth (best.rounds (n + 1)).1 (best.rounds (n + 1)).2
      (first.rounds (n + 1)).1 (first.rounds (n + 1)).2 := by
  have ledger := (Traversal.Ledger.of_bestFirst bestBegun).rounds n
  have ledger' := (Traversal.Ledger.of_breadthFirst firstBegun).rounds n
  have queued := queued_of_same bestBegun firstBegun constant nothing same
  have spent_eq : (first.rounds n).2.limits.spent (first.rounds n).2.stats.expansions =
      (best.rounds n).2.limits.spent (best.rounds n).2.stats.expansions := by
    have count := congrArg List.length same
    rw [List.length_map, List.length_map] at count
    rw [ledger.limits_eq, ledger.expansions_eq, ledger'.limits_eq, ledger'.expansions_eq, count,
      Limits.spent, Limits.spent]
  have expands {entry : Entry N Key} {left : Costed N}
      (unspent : (best.rounds n).2.limits.spent (best.rounds n).2.stats.expansions = false)
      (popped : Frontier.pop? (best.rounds n).2.frontier = some (entry, left)) :
      ∃ entry' left', entry'.place = entry.place ∧
        (first.rounds n).2.step =
          Traversal.expand { (first.rounds n).2 with frontier := left' } entry' := by
    obtain ⟨rest, line, -⟩ := queued.eq_cons_of_pop? popped
    obtain ⟨entry', left', popped', place_eq⟩ := Fifo.pop?_of_line_eq_cons line
    exact ⟨entry', left', place_eq, Traversal.step_of_kept (spent_eq.trans unspent) popped'
      (by rw [ledger'.limits_eq]; rfl)⟩
  rw [Traversal.rounds_succ_of_live live, Traversal.rounds_succ_of_live live']
  rcases (best.rounds n).2.step_cases with ⟨spent, step⟩ | ⟨unspent, none, step⟩ |
    ⟨entry, left, unspent, popped, deep, step⟩ | ⟨entry, left, unspent, popped, -, step⟩
  · rw [step, Traversal.step_of_spent (spent_eq.trans spent)]
    exact .together (by simpa [Traversal.finish] using nothing)
      (by simpa [Traversal.finish] using same) rfl
  · have line := queued.eq_nil_of_pop? none
    rw [step, Traversal.step_of_none (spent_eq.trans unspent) (Fifo.pop?_of_line_eq_nil line)]
    exact .together (by simpa [Traversal.finish] using nothing)
      (by simpa [Traversal.finish] using same) rfl
  · -- The other search expands what this one discards, and no place left is less deep.
    obtain ⟨entry', left', place_eq, step'⟩ := expands unspent popped
    rw [ledger.limits_eq, Limits.prunes_eq rfl, decide_eq_true_iff] at deep
    rw [step, step']
    refine .parted entry.place [] deep ?_ fun place member => ?_
    · simp [Traversal.expand, Traversal.prune, place_eq, same]
    · obtain ⟨rest, line, held⟩ := queued.eq_cons_of_pop? popped
      have ascending := breadthFirst_line_ascending firstBegun n
      rw [line] at ascending
      exact Nat.lt_of_lt_of_le deep
        ((List.pairwise_cons.1 ascending).1 place (held.mem_iff.2 member))
  · obtain ⟨entry', left', place_eq, step'⟩ := expands unspent popped
    rw [step, step']
    refine .together ?_ ?_ (live.trans live'.symm)
    · simpa [Traversal.expand] using nothing
    · simpa [Traversal.expand, place_eq] using same

/-- Two searches run alongside, whatever the graph and the bounds are. -/
theorem bestFirst_alongside (n : Nat) :
    Alongside policy.maxDepth (best.rounds n).1 (best.rounds n).2 (first.rounds n).1
      (first.rounds n).2 := by
  induction n with
  | zero =>
    rw [eq_of_bestFirst bestBegun, eq_of_breadthFirst firstBegun]
    exact .together rfl rfl rfl
  | succ n ih =>
    have ledger := (Traversal.Ledger.of_bestFirst bestBegun).rounds n
    cases ih with
    | together nothing same ended =>
      cases last : (best.rounds n).2.ended with
      | true =>
        rw [Traversal.rounds_succ_of_ended last, Traversal.rounds_succ_of_ended (ended ▸ last)]
        exact .together nothing same ended
      | false =>
        exact alongside_of_same bestBegun firstBegun constant nothing same last (ended ▸ last)
    | parted place rest beyond ahead deep =>
      obtain ⟨later, further⟩ := Traversal.rounds_prefix (t := first) (Nat.le_succ n)
      have ahead' : (expandedEntries (first.rounds (n + 1)).1).map Entry.place =
          (expandedEntries (best.rounds n).1).map Entry.place ++
            place :: (rest ++ (expandedEntries later).map Entry.place) := by
        rw [← further, expandedEntries_append, List.map_append, ahead, List.append_assoc,
          List.cons_append]
      cases last : (best.rounds n).2.ended with
      | true =>
        rw [Traversal.rounds_succ_of_ended last]
        exact .parted place _ beyond ahead' deep
      | false =>
        obtain ⟨quiet, deep'⟩ := held_deep_of_step (by rw [ledger.limits_eq]) deep
        rw [Traversal.rounds_succ_of_live last]
        refine .parted place (rest ++ (expandedEntries later).map Entry.place) beyond ?_ deep'
        rw [expandedEntries_append, quiet, List.append_nil]
        exact ahead'

/-- After equally many rounds the best-first search has expanded what the other has expanded before
the first place beyond the bound. -/
theorem bestFirst_expands_within (n : Nat) :
    (expandedEntries (best.rounds n).1).map Entry.place =
      placesWithin policy.maxDepth ((expandedEntries (first.rounds n).1).map Entry.place) := by
  have ledger := (Traversal.Ledger.of_bestFirst bestBegun).rounds n
  have shallow : ∀ place ∈ (expandedEntries (best.rounds n).1).map Entry.place,
      decide (place.2 ≤ policy.maxDepth) = true :=
    List.forall_mem_map.2 fun e member => decide_eq_true (ledger.depth_le_of_expanded rfl e member)
  cases bestFirst_alongside bestBegun firstBegun constant n with
  | together nothing same ended =>
    rw [← same]
    exact (List.takeWhile_eq_self_iff.2 shallow).symm
  | parted place rest beyond ahead deep =>
    rw [ahead, placesWithin, List.takeWhile_append_of_pos shallow, List.takeWhile_cons_of_neg,
      List.append_nil]
    simpa using beyond

end Rounds

/-! ## Courses -/

/-- The one search does what the other does until it comes to a place beyond the bound. -/
structure Traversal.Truncates (bound : Nat) (best : Traversal (Costed N) N)
    (first : Traversal (Fifo N) N) : Prop where
  /-- After equally many rounds it has expanded the same places within the bound. -/
  expands : ∀ n, (expandedEntries (best.rounds n).1).map Entry.place =
    placesWithin bound ((expandedEntries (first.rounds n).1).map Entry.place)
  /-- Its items are the verdicts on such places. -/
  items : ∀ {E σ : Type} {goal : N → StateM σ (Except E Bool)} {state after : σ}
    {items : List (Item N E)} {steps : List (Step N Key)} {last : Traversal (Costed N) N},
    best.Pulled goal state items steps last after →
      ∃ n places, placesWithin bound ((expandedEntries (first.rounds n).1).map Entry.place) = places ∧
        (expandedEntries steps).map Entry.place = places ∧
        testAll goal (places.map Prod.fst) state = (items, after)
  /-- Once it was asked for all its items, or has ended otherwise, it has expanded all places that the
  other expands before it comes beyond the bound. When the other has come there, or has ended, these
  are all, and the items of the other begin with its items. -/
  complete : ∀ {E σ : Type} {goal : N → StateM σ (Except E Bool)} {state after after' : σ}
    {items items' : List (Item N E)} {steps : List (Step N Key)} {others : List (Step N Unit)}
    {last : Traversal (Costed N) N} {last' : Traversal (Fifo N) N},
    best.Drained goal state items steps last after ∨
      best.Pulled goal state items steps last after ∧ last.ended = true →
    first.Pulled goal state items' others last' after' →
      placesWithin bound ((expandedEntries others).map Entry.place) <+:
        (expandedEntries steps).map Entry.place ∧
      ((last'.ended = true ∨ ∃ e ∈ expandedEntries others, bound < e.depth) →
        (expandedEntries steps).map Entry.place =
          placesWithin bound ((expandedEntries others).map Entry.place) ∧ items <+: items')

/-- It is enough that the same is expanded. -/
theorem truncates_of_expands {bound : Nat}
    (expands : ∀ n, (expandedEntries (best.rounds n).1).map Entry.place =
      placesWithin bound ((expandedEntries (first.rounds n).1).map Entry.place)) :
    best.Truncates bound first := by
  refine ⟨expands, ?_, ?_⟩
  · intro E σ goal state after items steps last pulled
    obtain ⟨n, same, verdicts, -⟩ := pulled.exists_rounds
    refine ⟨n, _, (expands n).symm, by rw [same.expanded], ?_⟩
    rw [List.map_map]
    exact verdicts
  · intro E σ goal state after after' items items' steps others last last' course pulled'
    obtain ⟨pulled, done⟩ := course.elim Traversal.Drained.pulled id
    obtain ⟨n, same, verdicts, left⟩ := pulled.exists_rounds
    obtain ⟨m, same', verdicts', left'⟩ := pulled'.exists_rounds
    rw [left, Traversal.ended_addGoals] at done
    rw [same.expanded, same'.expanded, left', Traversal.ended_addGoals]
    -- The best-first search has ended after `n` rounds, so it has what the other has after more.
    have whole {k : Nat} (later : n ≤ k) : (expandedEntries (best.rounds n).1).map Entry.place =
        placesWithin bound ((expandedEntries (first.rounds k).1).map Entry.place) := by
      rw [← expands, Traversal.rounds_eq_of_ended done later]
    have longer (le : m ≤ n) : (expandedEntries (first.rounds m).1).map Entry.place <+:
        (expandedEntries (first.rounds n).1).map Entry.place :=
      ((Traversal.rounds_prefix le).filterMap Step.expanded?).map Entry.place
    refine ⟨?_, fun beyond => ?_⟩
    · rcases Nat.le_total m n with le | ge
      · rw [whole (Nat.le_refl n)]
        exact takeWhile_prefix_takeWhile _ (longer le)
      · rw [whole ge]
    · have all : (expandedEntries (best.rounds n).1).map Entry.place =
          placesWithin bound ((expandedEntries (first.rounds m).1).map Entry.place) := by
        rcases Nat.le_total m n with le | ge
        · rw [whole (Nat.le_refl n)]
          rcases beyond with ended | ⟨e, member, deep⟩
          · rw [Traversal.rounds_eq_of_ended ended le]
          · exact takeWhile_eq_of_prefix (longer le) (List.mem_map_of_mem member)
              (decide_eq_false (Nat.not_le_of_lt deep))
        · exact whole ge
      have nodes : expandedNodes (best.rounds n).1 <+: expandedNodes (first.rounds m).1 := by
        have firstOnes := (List.takeWhile_prefix (·.2 ≤ bound)
          (l := (expandedEntries (first.rounds m).1).map Entry.place)).map Prod.fst
        rw [← placesWithin, ← all, List.map_map, List.map_map] at firstOnes
        exact firstOnes
      have items_prefix := testAll_prefix goal state nodes
      rw [verdicts, verdicts'] at items_prefix
      exact ⟨all, items_prefix⟩

/-- At constant cost a best-first search does what a breadth-first search does until it comes to a
place beyond the bound. Neither starts under a policy that is not valid. -/
theorem bestFirst_truncates_breadthFirst (graph : Graph N) (policy : Policy) (costs : Costs N)
    (c : Binary64) (constant : costs.Computes fun _ => c) :
    (∃ e, bestFirst graph costs policy = .error e ∧ breadthFirst graph policy = .error e) ∨
    ∃ best first, bestFirst graph costs policy = .ok best ∧
      breadthFirst graph policy = .ok first ∧ best.Truncates policy.maxDepth first := by
  cases valid : policy.validate with
  | error e =>
    exact .inl ⟨e, bestFirst_of_invalid graph costs valid, breadthFirst_of_invalid graph valid⟩
  | ok =>
    obtain ⟨best, bestBegun⟩ := exists_bestFirst graph costs valid
    obtain ⟨first, firstBegun⟩ := exists_breadthFirst graph valid
    exact .inr ⟨best, first, bestBegun, firstBegun,
      truncates_of_expands (bestFirst_expands_within bestBegun firstBegun constant)⟩

/-! ## The detour without costs -/

/-- To depth one the detour is expanded as by a breadth-first search, which goes on to depth two. Asked
for all its items, the best-first search has expanded the same three places. -/
theorem detour_truncated :
    (Costs.direct fun _ : Numbered => .zero).Computes (fun _ => .zero) ∧
    ∃ best first, bestFirst detour (.direct fun _ => .zero) (.bounded 1) = .ok best ∧
      breadthFirst detour (.bounded 1) = .ok first ∧
      (expandedEntries (first.rounds 5).1).map Entry.place =
        [(⟨0⟩, 0), (⟨1⟩, 1), (⟨2⟩, 1), (⟨3⟩, 2), (⟨4⟩, 2)] ∧
      (expandedEntries (best.rounds 5).1).map Entry.place = [(⟨0⟩, 0), (⟨1⟩, 1), (⟨2⟩, 1)] ∧
      ∃ items steps last after, best.Drained (detourGoal 4) () items steps last after ∧
        (expandedEntries steps).map Entry.place = [(⟨0⟩, 0), (⟨1⟩, 1), (⟨2⟩, 1)] := by
  have constant := Costs.computes_direct fun _ : Numbered => .zero
  refine ⟨constant, ?_⟩
  rcases bestFirst_truncates_breadthFirst detour (.bounded 1) _ .zero constant with
    ⟨e, refused, -⟩ | ⟨best, first, bestBegun, firstBegun, truncates⟩
  · cases refused
  · have expanded : (expandedEntries (first.rounds 5).1).map Entry.place =
        [(⟨0⟩, 0), (⟨1⟩, 1), (⟨2⟩, 1), (⟨3⟩, 2), (⟨4⟩, 2)] := by
      rw [eq_of_breadthFirst firstBegun]
      decide +kernel
    obtain ⟨n, ended⟩ := (begins_of_bestFirst bestBegun).exists_rounds_ended
      (by decide : 1 < maxCountedDepth)
    obtain ⟨items, steps, last, after, course⟩ := Traversal.exists_drained (detourGoal 4) () ended
    obtain ⟨_, others, _, _, pulled, same, -⟩ := Traversal.exists_pulled (detourGoal 4) first () 5
    rw [← same.expanded] at expanded
    -- The breadth-first search has come beyond the bound, at node 4.
    have beyond : (⟨⟨4⟩, 2⟩ : Numbered × Nat) ∈ (expandedEntries others).map Entry.place := by
      rw [expanded]
      decide
    obtain ⟨e, member, place⟩ := List.mem_map.1 beyond
    have deep : 1 < e.depth := by
      rw [show e.depth = 2 from congrArg Prod.snd place]
      decide
    have all := ((truncates.complete (.inl course) pulled).2 (.inr ⟨e, member, deep⟩)).1
    rw [expanded] at all
    rw [same.expanded] at expanded
    refine ⟨best, first, bestBegun, firstBegun, expanded, ?_, items, steps, last, after, course, all⟩
    rw [truncates.expands, expanded]
    decide

end GrammarSearch
