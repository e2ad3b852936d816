import GrammarSearch.Proofs.Search.Conservation
import GrammarSearch.Proofs.Search.CostQueue
import GrammarSearch.Proofs.Search.Simulation

/-!
# Memoized costs

To memoize the costs of a best-first search changes nothing but how often the cost function is
called. With and without a memo the search takes the same rounds and hands out the same items. It
asks for the cost of every node that it meets, in order and once (`bestFirst_costs`), so what the
memo counts is known at any time (`Memo.Counts`). If the search suppresses duplicates, the memo
knows what the frontier has let in, though costs are taken before duplicates are told.

How often the function is called shows when it records its calls. Then it has a state, and the search
is one by a cost function with a state (`bestFirstBy`). Searches by cost functions that answer alike
cannot be told apart (`bestFirstBy_like`).
-/

namespace GrammarSearch

variable {N V E σ : Type} [Fingerprinted N]

/-! ## What a memo counts -/

/-- The memo after it was asked for the values of nodes, one after the other. -/
def Memo.after (memo : Memo N V) : List N → Memo N V
  | [] => memo
  | node :: nodes => (memo.get node).2.after nodes

theorem Memo.get_of_known {memo : Memo N V} {node : N}
    (known : (Fingerprinted.fingerprint node).value ∈ memo.table) :
    (memo.get node).2 = { memo with hits := memo.hits + 1 } := by
  rw [Memo.get_of_some (Std.TreeMap.getElem?_eq_some_getElem known)]

theorem Memo.get_of_new {memo : Memo N V} {node : N}
    (new : (Fingerprinted.fingerprint node).value ∉ memo.table) :
    memo.get node = (memo.compute node, { memo with
      table := memo.table.insert (Fingerprinted.fingerprint node).value (memo.compute node)
      misses := memo.misses + 1 }) :=
  Memo.get_of_none (Std.TreeMap.getElem?_eq_none new)

/-- The memo was asked for the values of the nodes, and of no others. -/
structure Memo.Counts (memo : Memo N V) (nodes : List N) : Prop where
  known : ∀ fingerprint : Digest,
    fingerprint.value ∈ memo.table ↔ fingerprint ∈ nodes.map Fingerprinted.fingerprint
  total : memo.hits + memo.misses = nodes.length
  kept : memo.misses = memo.size
  distinct : memo.misses = (nodes.map Fingerprinted.fingerprint).eraseDups.length

theorem Memo.counts_empty (compute : N → V) : (Memo.empty compute).Counts [] where
  known fingerprint := by simp [Memo.empty]
  total := rfl
  kept := rfl
  distinct := rfl

theorem eraseDups_concat_of_mem {α : Type} [BEq α] [LawfulBEq α] {l : List α} {a : α}
    (member : a ∈ l) : (l ++ [a]).eraseDups = l.eraseDups := by
  rw [List.eraseDups_append]
  simp [List.removeAll, member]

theorem eraseDups_concat_of_notMem {α : Type} [BEq α] [LawfulBEq α] {l : List α} {a : α}
    (new : a ∉ l) : (l ++ [a]).eraseDups = l.eraseDups ++ [a] := by
  rw [List.eraseDups_append]
  simp [List.removeAll, new, List.eraseDups_cons]

theorem Memo.Counts.get {memo : Memo N V} {nodes : List N} (counts : memo.Counts nodes)
    (node : N) : (memo.get node).2.Counts (nodes ++ [node]) := by
  by_cases known : (Fingerprinted.fingerprint node).value ∈ memo.table
  · have before := (counts.known _).1 known
    rw [Memo.get_of_known known]
    constructor
    case known =>
      intro fingerprint
      rw [List.map_append, List.mem_append, counts.known, List.map_singleton, List.mem_singleton]
      exact ⟨.inl, fun either => either.elim id fun same => same ▸ before⟩
    case total =>
      rw [List.length_append, ← counts.total]
      exact Nat.add_right_comm _ _ _
    case kept => exact counts.kept
    case distinct =>
      rw [List.map_append, List.map_singleton, eraseDups_concat_of_mem before]
      exact counts.distinct
  · have new := mt (counts.known _).2 known
    rw [Memo.get_of_new known]
    constructor
    case known =>
      intro fingerprint
      have same : (Fingerprinted.fingerprint node).value = fingerprint.value ↔
          fingerprint = Fingerprinted.fingerprint node :=
        ⟨fun values => congrArg Digest.mk values.symm, fun same => congrArg Digest.value same.symm⟩
      rw [List.map_append, List.mem_append, ← counts.known, List.map_singleton, List.mem_singleton,
        Std.TreeMap.mem_insert, Nat.compare_eq_eq, same, or_comm]
    case total =>
      rw [List.length_append, ← counts.total]
      exact (Nat.add_assoc _ _ _).symm
    case kept =>
      rw [Memo.size, Std.TreeMap.size_insert, if_neg (mt Std.TreeMap.mem_iff_contains.2 known),
        counts.kept]
      rfl
    case distinct =>
      rw [List.map_append, List.map_singleton, eraseDups_concat_of_notMem new, List.length_append,
        ← counts.distinct]
      rfl

theorem Memo.Counts.after {memo : Memo N V} {nodes : List N} (counts : memo.Counts nodes)
    (more : List N) : (memo.after more).Counts (nodes ++ more) := by
  induction more generalizing memo nodes with
  | nil =>
    rw [List.append_nil]
    exact counts
  | cons node more ih =>
    rw [List.append_cons]
    exact ih (counts.get node)

/-! ## Costs in the course of a search -/

theorem Costs.after_append (costs : Costs N) (nodes more : List N) :
    costs.after (nodes ++ more) = (costs.after nodes).after more := by
  induction nodes generalizing costs with
  | nil => rfl
  | cons node nodes ih => exact ih _

theorem Costs.after_memoized (memo : Memo N Binary64) (nodes : List N) :
    (Costs.memoized memo).after nodes = .memoized (memo.after nodes) := by
  induction nodes generalizing memo with
  | nil => rfl
  | cons node nodes ih => exact ih _

theorem Costed.costs_offer (depth : Nat) (f : Costed N) (children : List N) :
    (Traversal.offer depth f children).2.costs = f.costs.after children := by
  induction children generalizing f with
  | nil => rfl
  | cons child children ih => exact ih _

variable {graph : Graph N} {policy : Policy} {costs : Costs N} {start : Traversal (Costed N) N}

/-- A best-first search asks for the costs of the nodes that it meets. -/
theorem bestFirst_costs (begun : bestFirst graph costs policy = .ok start) (n : Nat) :
    (start.rounds n).2.frontier.costs = costs.after (met graph (start.rounds n).1) := by
  refine (Traversal.rounds_induction (t := start) (motive := fun steps s =>
    s.graph = graph ∧ s.frontier.costs = costs.after (met graph steps)) ?_ ?_ n).2
  · rw [eq_of_bestFirst begun]
    exact ⟨rfl, rfl⟩
  · rintro steps s - ⟨same, asked⟩
    rcases s.step_outcome with ⟨reason, step⟩ | ⟨entry, frontier, popped, -, step⟩ |
      ⟨entry, frontier, popped, -, step⟩ <;> rw [step, met]
    · rw [expandedNodes_finish]
      exact ⟨same, asked⟩
    · obtain ⟨heap, -, rfl⟩ := Costed.exists_heap_of_pop? popped
      rw [expandedNodes_prune]
      exact ⟨same, asked⟩
    · obtain ⟨heap, -, rfl⟩ := Costed.exists_heap_of_pop? popped
      rw [expandedNodes_expand, List.flatMap_append, List.flatMap_singleton, ← List.cons_append,
        Costs.after_append, ← met, ← asked, ← same]
      exact ⟨rfl, Costed.costs_offer _ _ _⟩

/-! ## With and without a memo -/

theorem Costed.pop?_eq_none {f : Costed N} (nothing : f.frontier.pop? = none) :
    Frontier.pop? f = none :=
  Option.map_eq_none_iff.2 nothing

theorem Costed.pop?_eq_some {f : Costed N} {entry : Entry N Key} {frontier : BestFirst N}
    (taken : f.frontier.pop? = some (entry, frontier)) :
    Frontier.pop? f = some (entry, { f with frontier }) :=
  Option.map_eq_some_iff.2 ⟨_, taken, rfl⟩

/-- The frontiers hold the same, and both give every node its cost. -/
def Costed.Agree (cost : N → Binary64) (f g : Costed N) : Prop :=
  f.frontier = g.frontier ∧ f.costs.Computes cost ∧ g.costs.Computes cost

theorem Costed.indistinct_agree (cost : N → Binary64) :
    Indistinct (Costed.Agree (N := N) cost) where
  push {f g} node depth := by
    rintro ⟨same, computes, computes'⟩
    change (f.push node depth).1 = (g.push node depth).1 ∧
      Costed.Agree cost (f.push node depth).2 (g.push node depth).2
    simp only [Costed.push, computes.get, computes'.get, same]
    exact ⟨trivial, rfl, computes.after_get node, computes'.after_get node⟩
  pop?_none {f g} := by
    rintro ⟨same, -, -⟩ nothing
    exact Costed.pop?_eq_none (same ▸ Option.map_eq_none_iff.1 nothing)
  pop?_some {f rest g entry} := by
    rintro ⟨same, computes, computes'⟩ popped
    obtain ⟨frontier, taken, rfl⟩ := Costed.exists_frontier_of_pop? popped
    exact ⟨_, Costed.pop?_eq_some (same ▸ taken), rfl, computes, computes'⟩
  highWater {f g} := fun ⟨same, _, _⟩ => congrArg BestFirst.highWater same

/-! ## Cost functions with a state -/

section Stateful

variable {S : Type} {cost : S → N → Binary64 × S} {R : S → Costs N → Prop}

/-- In a state related to costs the cost function answers as the costs do, and they stay related. -/
def AnswersAlike (cost : S → N → Binary64 × S) (R : S → Costs N → Prop) : Prop :=
  ∀ state costs node, R state costs →
    (cost state node).1 = (costs.get node).1 ∧ R (cost state node).2 (costs.get node).2

/-- The frontiers hold the same. One has the cost function with a state, and its state is related to
the costs that the other has. -/
def Stateful.Follows (cost : S → N → Binary64 × S) (R : S → Costs N → Prop) (f : Stateful S N)
    (g : Costed N) : Prop :=
  f.frontier = g.frontier ∧ f.cost = cost ∧ R f.state g.costs

theorem Stateful.indistinct_follows (answers : AnswersAlike cost R) :
    Indistinct (Stateful.Follows cost R) where
  push {f g} node depth := by
    intro follows
    obtain ⟨same, function, related⟩ := follows
    obtain ⟨answer, after⟩ := answers f.state g.costs node related
    change (f.push node depth).1 = (g.push node depth).1 ∧
      Stateful.Follows cost R (f.push node depth).2 (g.push node depth).2
    simp only [Stateful.push, Costed.push, same, function, answer]
    exact ⟨trivial, rfl, rfl, after⟩
  pop?_none {f g} := by
    intro follows nothing
    exact Costed.pop?_eq_none (follows.1 ▸ Option.map_eq_none_iff.1 nothing)
  pop?_some {f rest g entry} := by
    intro follows popped
    obtain ⟨same, function, related⟩ := follows
    obtain ⟨frontier, taken, rfl⟩ := Stateful.exists_frontier_of_pop? popped
    exact ⟨_, Costed.pop?_eq_some (same ▸ taken), rfl, function, related⟩
  highWater {f g} := fun ⟨same, _, _⟩ => congrArg BestFirst.highWater same

/-- Searches by cost functions that answer alike are alike. -/
theorem bestFirstBy_like (answers : AnswersAlike cost R)
    (begun : bestFirst graph costs policy = .ok start) {state : S} (related : R state costs)
    {other : Traversal (Stateful S N) N} (begun' : bestFirstBy graph cost state policy = .ok other) :
    other.Like (Stateful.Follows cost R) start := by
  have pushed := (Stateful.indistinct_follows answers).push
    (f := .empty policy.dedup cost state) (g := .empty policy.dedup costs) graph.root 0
    ⟨rfl, rfl, related⟩
  rw [eq_of_bestFirst begun, eq_of_boundedSearch begun']
  exact ⟨rfl, rfl, rfl, pushed.2⟩

/-- A best-first search is the one whose cost function has the costs themselves as its state. -/
theorem bestFirst_by_costs (graph : Graph N) (costs : Costs N) (valid : policy.validate = .ok ()) :
    ∃ start other, bestFirst graph costs policy = .ok start ∧
      bestFirstBy graph Costs.get costs policy = .ok other ∧
      ∀ {E σ : Type} (goal : N → StateM σ (Except E Bool)) (allowed : List Nat) (state : σ),
        (other.asked goal allowed state).Like (Stateful.Follows Costs.get Eq)
          (start.asked goal allowed state) := by
  have answers : AnswersAlike (Costs.get (N := N)) Eq := by
    intro state costs node same
    rw [same]
    exact ⟨rfl, rfl⟩
  obtain ⟨start, begun⟩ := exists_bestFirst graph costs valid
  obtain ⟨other, begun', -⟩ := exists_bestFirstBy graph Costs.get costs valid
  have like := bestFirstBy_like answers begun rfl begun'
  exact ⟨start, other, begun, begun', fun goal allowed state =>
    like.asked (Stateful.indistinct_follows answers) goal allowed state⟩

end Stateful

/-! ## Calls of the cost function -/

omit [Fingerprinted N] in
/-- The function, which records for which nodes it is called. -/
def recorded (compute : N → V) (node : N) : StateM (List N) V := do
  modify (· ++ [node])
  return compute node

/-- The function is called whenever a value is not found. -/
theorem Memo.run_getM_recorded (memo : Memo N V) (node : N) (calls : List N) :
    ∃ more, (memo.getM (recorded memo.compute) node).run calls = (memo.get node, calls ++ more) ∧
      (memo.get node).2.misses = memo.misses + more.length := by
  cases found : memo.table[(Fingerprinted.fingerprint node).value]? with
  | some value =>
    refine ⟨[], ?_, ?_⟩ <;> rw [Memo.get_of_some found]
    · rw [Memo.getM, found, List.append_nil]
      rfl
    · rfl
  | none =>
    refine ⟨[node], ?_, ?_⟩ <;> rw [Memo.get_of_none found]
    · rw [Memo.getM, found]
      rfl
    · rfl

/-- The memoized cost function that records its calls. Its state is the memo with the calls so
far. -/
def recordedCost (state : Memo N Binary64 × List N) (node : N) :
    Binary64 × (Memo N Binary64 × List N) :=
  let ((cost, memo), calls) := (state.1.getM (recorded state.1.compute) node).run state.2
  (cost, memo, calls)

/-- The costs are memoized, and the memo has counted all calls. -/
def Recorded (state : Memo N Binary64 × List N) (costs : Costs N) : Prop :=
  costs = .memoized state.1 ∧ state.2.length = state.1.misses

theorem answersAlike_recordedCost : AnswersAlike (recordedCost (N := N)) Recorded := by
  intro state costs node related
  obtain ⟨rfl, counted⟩ := related
  obtain ⟨more, got, misses⟩ := state.1.run_getM_recorded node state.2
  simp only [recordedCost, got, Costs.get]
  refine ⟨trivial, rfl, ?_⟩
  rw [List.length_append, counted, misses]

/-! ## The searches -/

/-- The counts of a memo of costs agree with those of the search that has it. -/
structure Memo.Agrees (memo : Memo N Binary64) (cost : N → Binary64) (graph : Graph N)
    (policy : Policy) (asked : Asked (Costed N) N Key E σ) : Prop where
  /-- It was asked for the nodes that the search has met. -/
  after_eq : memo = (Memo.empty cost).after (met graph asked.steps)
  total : memo.hits + memo.misses = 1 + asked.traversal.stats.nodesGenerated
  kept : memo.misses = memo.size
  distinct : memo.misses =
    ((met graph asked.steps).map Fingerprinted.fingerprint).eraseDups.length
  hits_eq : policy.dedup = .structural →
    memo.hits = asked.traversal.stats.duplicatesSuppressed
  misses_eq : policy.dedup = .structural →
    memo.misses = 1 + asked.traversal.stats.nodesGenerated -
      asked.traversal.stats.duplicatesSuppressed

/-- If duplicates are suppressed, as many nodes are let in as there are fingerprints. -/
theorem length_admitted_offers (graph : Graph N) {K : Type} (steps : List (Step N K)) :
    ((Visited.empty .structural).admitted (offers graph steps)).length =
      ((met graph steps).map Fingerprinted.fingerprint).eraseDups.length := by
  have fingerprints := Visited.map_fingerprint_admitted (v := .empty .structural) rfl
    (offers graph steps)
  have unknown (fingerprint : Digest) :
      (!(Visited.empty .structural).knows fingerprint) = true := by
    rw [Visited.knows_empty, Bool.not_false]
  rw [List.filter_eq_self.2 fun _ _ => unknown _] at fingerprints
  have lengths := congrArg List.length fingerprints
  rw [List.length_map] at lengths
  rw [lengths, ← map_fst_offers, List.map_map]
  rfl

theorem bestFirst_memo_agrees {cost : N → Binary64}
    (begun : bestFirst graph (.memoized (.empty cost)) policy = .ok start)
    (goal : N → StateM σ (Except E Bool)) (allowed : List Nat) (state : σ) :
    ∃ memo, (start.asked goal allowed state).traversal.frontier.costs = .memoized memo ∧
      memo.Agrees cost graph policy (start.asked goal allowed state) := by
  have conserved := bestFirst_conserves begun goal allowed state
  obtain ⟨n, same, -, last⟩ := (start.pulled_asked goal allowed state).exists_rounds
  have ledger := (Traversal.Ledger.of_bestFirst begun).rounds n
  have mets : met graph (start.asked goal allowed state).steps = met graph (start.rounds n).1 := by
    rw [met, met, same.expandedNodes_eq]
  have counts := (Memo.counts_empty cost).after (met graph (start.rounds n).1)
  rw [List.nil_append, ← mets] at counts
  have offered : (met graph (start.asked goal allowed state).steps).length =
      1 + (start.asked goal allowed state).traversal.stats.nodesGenerated := by
    rw [← map_fst_offers, List.length_map, length_offers, conserved.generated]
  have total := counts.total.trans offered
  have duplicates (structural : policy.dedup = .structural) :
      (start.asked goal allowed state).traversal.stats.duplicatesSuppressed +
        ((Memo.empty cost).after (met graph (start.asked goal allowed state).steps)).misses =
      1 + (start.asked goal allowed state).traversal.stats.nodesGenerated := by
    have accounts := ledger.duplicates_eq
    rw [structural, length_admitted_offers, ← List.length_map (f := Prod.fst), map_fst_offers,
      ← mets, ← counts.distinct, offered] at accounts
    have counted : (start.asked goal allowed state).traversal.stats.duplicatesSuppressed =
        (start.rounds n).2.stats.duplicatesSuppressed := by
      rw [last]
      rfl
    rw [counted]
    exact accounts
  refine ⟨_, ?_, rfl, total, counts.kept, counts.distinct, fun structural => ?_,
    fun structural => ?_⟩
  · rw [last]
    exact (bestFirst_costs begun n).trans (mets ▸ Costs.after_memoized _ _)
  · have both := duplicates structural
    omega
  · have both := duplicates structural
    omega

/-- To memoize the costs changes nothing but how often they are computed. With and without a memo
a best-first search hands out the same items and counts the same, pull by pull. The memo was then
asked once for every node that was met, and has computed as many values as it keeps, one for each
fingerprint. So often the cost function is called, as is seen when it records its calls: with a cost
function that does, the search hands out the same items, and its memo is the same. -/
theorem bestFirst_memoized (graph : Graph N) (policy : Policy) (valid : policy.validate = .ok ())
    (cost : N → Binary64) (respects : ∀ a b, Fingerprinted.fingerprint a =
      Fingerprinted.fingerprint b → cost a = cost b) :
    ∃ plain cached recording, bestFirst graph (.direct cost) policy = .ok plain ∧
      bestFirst graph (.memoized (.empty cost)) policy = .ok cached ∧
      bestFirstBy graph recordedCost (.empty cost, []) policy = .ok recording ∧
      ∀ {E σ : Type} (goal : N → StateM σ (Except E Bool)) (allowed : List Nat) (state : σ),
        (cached.asked goal allowed state).items = (plain.asked goal allowed state).items ∧
        (cached.asked goal allowed state).steps = (plain.asked goal allowed state).steps ∧
        (cached.asked goal allowed state).state = (plain.asked goal allowed state).state ∧
        (cached.asked goal allowed state).traversal.stats =
          (plain.asked goal allowed state).traversal.stats ∧
        ∃ memo calls,
          (cached.asked goal allowed state).traversal.frontier.costs = .memoized memo ∧
          memo.Agrees cost graph policy (cached.asked goal allowed state) ∧
          (recording.asked goal allowed state).items = (plain.asked goal allowed state).items ∧
          (recording.asked goal allowed state).traversal.frontier.state = (memo, calls) ∧
          calls.length = memo.misses := by
  obtain ⟨plain, begun⟩ := exists_bestFirst graph (.direct cost) valid
  obtain ⟨cached, begun'⟩ := exists_bestFirst graph (.memoized (.empty cost)) valid
  obtain ⟨recording, begun'', -⟩ :=
    exists_bestFirstBy graph recordedCost (Memo.empty cost, []) valid
  refine ⟨plain, cached, recording, begun, begun', begun'', fun {E σ} goal allowed state => ?_⟩
  have agreed : cached.Like (Costed.Agree cost) plain := by
    have pushed := (Costed.indistinct_agree cost).push
      (f := .empty policy.dedup (.memoized (.empty cost))) (g := .empty policy.dedup (.direct cost))
      graph.root 0 ⟨rfl, Costs.computes_memoized respects, Costs.computes_direct cost⟩
    rw [eq_of_bestFirst begun, eq_of_bestFirst begun']
    exact ⟨rfl, rfl, rfl, pushed.2⟩
  have recorded := bestFirstBy_like answersAlike_recordedCost begun' ⟨rfl, rfl⟩ begun''
  have one := agreed.asked (Costed.indistinct_agree cost) goal allowed state
  have other := recorded.asked (Stateful.indistinct_follows answersAlike_recordedCost) goal allowed state
  obtain ⟨memo, costs, agrees⟩ := bestFirst_memo_agrees begun' goal allowed state
  obtain ⟨-, -, kept, counted⟩ := other.traversal.related
  obtain rfl := Costs.memoized.inj (costs.symm.trans kept)
  exact ⟨one.items_eq, one.steps_eq, one.state_eq, one.traversal.stats_eq, _, _, costs, agrees,
    other.items_eq.trans one.items_eq, rfl, counted⟩

/-- What the detour costs at a toll of ten. -/
def detourCost (node : Numbered) : Binary64 := if node.number = 2 then .ofNat 10 else .zero

theorem detourCost_respects (a b : Numbered)
    (same : Fingerprinted.fingerprint a = Fingerprinted.fingerprint b) :
    detourCost a = detourCost b := by
  have numbers : a.number = b.number := congrArg Digest.value same
  rw [detourCost, detourCost, numbers]

/-- Node 4 is found twice in the search of the detour, and its cost is computed once: the cost
function is called for five nodes. -/
theorem detour_memoized :
    (Policy.bounded 2).validate = .ok () ∧
      (∀ a b, Fingerprinted.fingerprint a = Fingerprinted.fingerprint b →
        detourCost a = detourCost b) ∧
      ∃ cached recording memo calls,
        bestFirst detour (.memoized (.empty detourCost)) (.bounded 2) = .ok cached ∧
        bestFirstBy detour recordedCost (.empty detourCost, []) (.bounded 2) = .ok recording ∧
        (cached.asked (detourGoal 4) [9, 9] ()).traversal.frontier.costs = .memoized memo ∧
        (recording.asked (detourGoal 4) [9, 9] ()).traversal.frontier.state = (memo, calls) ∧
        memo.hits = 1 ∧ memo.misses = 5 ∧ calls.length = 5 := by
  obtain ⟨plain, cached, recording, begun, begun', begun'', agree⟩ :=
    bestFirst_memoized detour (.bounded 2) rfl detourCost detourCost_respects
  obtain rfl : detourSearch 10 = plain := Except.ok.inj begun
  obtain ⟨-, -, -, same, memo, calls, costs, agrees, -, recorded, counted⟩ :=
    agree (detourGoal 4) [9, 9] ()
  have stats : ((detourSearch 10).asked (detourGoal 4) [9, 9] ()).traversal.stats =
      ⟨4, 5, 1, 0, 1, 0, 2, some .frontierExhausted⟩ := by decide +kernel
  have misses : memo.misses = 5 := by
    rw [agrees.misses_eq rfl, same, stats]
    rfl
  refine ⟨rfl, detourCost_respects, cached, recording, memo, calls, begun', begun'', costs, recorded,
    ?_, misses, counted.trans misses⟩
  rw [agrees.hits_eq rfl, same, stats]

end GrammarSearch
