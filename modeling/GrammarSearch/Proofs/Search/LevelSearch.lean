import GrammarSearch.Proofs.Search.Coverage
import GrammarSearch.Proofs.Search.LevelOrder
import GrammarSearch.Proofs.Search.Levels
import Mathlib.Order.Bounds.Defs

/-!
# Breadth-first search is level order

A breadth-first search that keeps duplicates expands the levels of the graph one
after the other. One that suppresses them expands what is left of the levels
when every node with the fingerprint of an earlier one is struck out, provided
that nodes with one fingerprint have children with the same fingerprints: then
the children of a node struck out are struck out themselves
(`Graph.Coherent.admitted_unfolded`), so nothing is lost by not expanding it.

Both are one statement, `breadthFirst_expands_levels`, about the levels that a
frontier would let in.
-/

namespace GrammarSearch

variable {N : Type} [Fingerprinted N] {graph : Graph N}

/-! ## Duplicates and their children -/

theorem Graph.Coherent.admitted_flatMap (coherent : graph.Coherent) {v w : Visited}
    (structural : v.dedup = .structural) (structural' : w.dedup = .structural)
    (closed : ∀ node, w.knows (Fingerprinted.fingerprint node) = true →
      ∀ child ∈ graph.expand node, v.knows (Fingerprinted.fingerprint child) = true)
    (places : List (N × Nat)) :
    v.admitted ((w.admitted places).flatMap graph.below) =
      v.admitted (places.flatMap graph.below) := by
  induction places generalizing v w with
  | nil => rfl
  | cons place places ih =>
    rw [Visited.admitted, List.flatMap_cons]
    cases known : w.knows (Fingerprinted.fingerprint place.1) with
    | true =>
      have all_known : ∀ offer ∈ graph.below place,
          v.knows (Fingerprinted.fingerprint offer.1) = true := by
        intro offer member
        obtain ⟨child, here, rfl⟩ := List.mem_map.1 member
        exact closed place.1 known child here
      obtain ⟨none, same⟩ := Visited.admitted_of_known all_known
      rw [if_pos rfl, Visited.after_of_knows known, ih structural structural' closed,
        Visited.admitted_append, none, same, List.nil_append]
    | false =>
      rw [if_neg Bool.false_ne_true, List.flatMap_cons, Visited.admitted_append,
        Visited.admitted_append, ih]
      · rw [Visited.dedup_afterAll, structural]
      · rw [Visited.dedup_after, structural']
      · intro node knows child member
        rw [Visited.knows_afterAll structural]
        rcases (Visited.knows_after structural' _ _).1 knows with before | same
        · exact .inl (closed node before child member)
        · obtain ⟨twin, here, alike⟩ := coherent.exists_child same member
          exact .inr ⟨(twin, place.2 + 1), List.mem_map_of_mem here, alike⟩

/-- A node struck out may be struck out before or after it is expanded. -/
theorem Graph.Coherent.admitted_unfolded {dedup : Dedup}
    (coherent : dedup = .structural → graph.Coherent) (places : List (N × Nat)) :
    (Visited.empty dedup).admitted (graph.unfolded ((Visited.empty dedup).admitted places)) =
      (Visited.empty dedup).admitted (graph.unfolded places) := by
  cases dedup with
  | off =>
    rw [Visited.admitted_off, Visited.admitted_off, Visited.admitted_off]
  | structural =>
    have below_same := (coherent rfl).admitted_flatMap
      (v := (Visited.empty .structural).after (Fingerprinted.fingerprint graph.root))
      (w := .empty .structural) (Visited.dedup_after _ _) rfl
      (fun node known => by rw [Visited.knows_empty] at known; cases known) places
    rw [Graph.unfolded, Graph.unfolded, Visited.admitted_cons, below_same, ← Visited.admitted_cons]

theorem Visited.admitted_prefix (v : Visited) {first all : List (N × Nat)}
    (among : first <+: all) : v.admitted first <+: v.admitted all := by
  rcases among with ⟨more, rfl⟩
  rw [Visited.admitted_append]
  exact List.prefix_append _ _

/-! ## The levels that are let in -/

/-- What a search keeps of the first levels. -/
def Graph.keptLevels (graph : Graph N) (dedup : Dedup) (k : Nat) : List (N × Nat) :=
  (Visited.empty dedup).admitted (graph.levels k)

theorem Graph.keptLevels_succ {dedup : Dedup} (coherent : dedup = .structural → graph.Coherent)
    (k : Nat) :
    graph.keptLevels dedup (k + 1) =
      (Visited.empty dedup).admitted (graph.unfolded (graph.keptLevels dedup k)) := by
  rw [Graph.keptLevels, Graph.keptLevels, Graph.levels_succ,
    Graph.Coherent.admitted_unfolded coherent]

theorem Graph.keptLevels_mono (graph : Graph N) (dedup : Dedup) {j k : Nat} (le : j ≤ k) :
    graph.keptLevels dedup j <+: graph.keptLevels dedup k := by
  apply Visited.admitted_prefix
  obtain ⟨more, rfl⟩ := Nat.exists_eq_add_of_le le
  rw [Graph.levels, Graph.levels, List.range_add, List.flatMap_append]
  exact List.prefix_append _ _

/-- A search that has expanded nodes of levels has let in what is kept below them. -/
theorem admitted_offers_of_counted {K : Type} {steps : List (Step N K)} {places : List (N × Nat)}
    (expanded : (expandedEntries steps).map Entry.place = places.map counted) (v : Visited) :
    v.admitted (offers graph steps) = (v.admitted (graph.unfolded places)).map counted := by
  rw [offers_eq_of_counted expanded]
  exact v.admitted_map (min · maxCountedDepth) _

/-! ## The course of a breadth-first search -/

variable {policy : Policy} {start : Traversal (Fifo N) N} {n k : Nat}

/-- A breadth-first search expands the first nodes of the levels, as far as they are let in. -/
theorem breadthFirst_expands_levels (begun : breadthFirst graph policy = .ok start)
    (coherent : policy.dedup = .structural → graph.Coherent) (le : n ≤ k) :
    ∃ places, places <+: graph.keptLevels policy.dedup k ∧
      (expandedEntries (start.rounds n).1).map Entry.place = places.map counted := by
  induction n generalizing k with
  | zero => exact ⟨[], List.nil_prefix, rfl⟩
  | succ n ih =>
    obtain ⟨k, rfl⟩ : ∃ j, k = j + 1 := ⟨k - 1, by omega⟩
    obtain ⟨places, among, expanded⟩ := ih (Nat.le_of_succ_le_succ le)
    have next := breadthFirst_prefix_succ begun n
    rw [admitted_offers_of_counted expanded] at next
    obtain ⟨more, first, expanded⟩ := List.prefix_map_iff.1 next
    refine ⟨more, first.trans ?_, expanded⟩
    rw [Graph.keptLevels_succ coherent]
    exact Visited.admitted_prefix _ (graph.unfolded_prefix among)

/-- A breadth-first search that was not stopped has expanded all levels. -/
theorem breadthFirst_eq_levels_of_exhausted (begun : breadthFirst graph policy = .ok start)
    (coherent : policy.dedup = .structural → graph.Coherent) (le : n ≤ k)
    (exhausted : (start.rounds n).2.stats.termination = some .frontierExhausted) :
    (expandedEntries (start.rounds n).1).map Entry.place =
      (graph.keptLevels policy.dedup k).map counted := by
  have ledger := (Traversal.Ledger.of_breadthFirst begun).rounds n
  have all := breadthFirst_order begun n
  have nothing : (start.rounds n).2.frontier.line = [] :=
    (Multiset.coe_eq_zero _).1 (ledger.exhausted exhausted)
  obtain ⟨places, among, expanded⟩ := breadthFirst_expands_levels begun coherent (Nat.le_refl n)
  rw [nothing, List.append_nil, admitted_offers_of_counted expanded, expanded] at all
  have closed : (Visited.empty policy.dedup).admitted (graph.unfolded places) = places := by
    have length := congrArg List.length all
    rw [List.length_map, List.length_map] at length
    have both := Visited.admitted_prefix (.empty policy.dedup) (graph.unfolded_prefix among)
    rw [← Graph.keptLevels_succ coherent] at both
    have longer := among.trans (graph.keptLevels_mono policy.dedup (Nat.le_succ n))
    exact (List.prefix_of_prefix_length_le both longer length.ge).eq_of_length length.symm
  have whole (j : Nat) : graph.keptLevels policy.dedup j <+: places := by
    induction j with
    | zero => exact List.nil_prefix
    | succ j ih =>
      rw [Graph.keptLevels_succ coherent, ← closed]
      exact Visited.admitted_prefix _ (graph.unfolded_prefix ih)
  obtain ⟨places', among', expanded'⟩ := breadthFirst_expands_levels begun coherent le
  have length : places'.length = places.length := by
    have length := congrArg List.length (expanded'.symm.trans expanded)
    rwa [List.length_map, List.length_map] at length
  rw [expanded', among'.eq_of_length_le (by rw [length]; exact (whole k).length_le)]

/-- Without a bound on expansions it expands one more node of the levels in every round. -/
theorem breadthFirst_takes_levels (begun : breadthFirst graph policy = .ok start)
    (coherent : policy.dedup = .structural → graph.Coherent) (unlimited : policy.maxExpansions = none)
    (le : n ≤ k) :
    (expandedEntries (start.rounds n).1).map Entry.place =
      ((graph.keptLevels policy.dedup k).take n).map counted := by
  have ledger := (Traversal.Ledger.of_breadthFirst begun).rounds n
  cases ended : (start.rounds n).2.ended with
  | true =>
    have all := breadthFirst_eq_levels_of_exhausted begun coherent le
      (ledger.exhausted_of_ended unlimited ended)
    have length := Traversal.length_expandedNodes_le (t := start) n
    rw [expandedNodes, List.length_map, ← List.length_map Entry.place, all, List.length_map] at length
    rw [all, List.take_of_length_le length]
  | false =>
    obtain ⟨places, among, expanded⟩ := breadthFirst_expands_levels begun coherent le
    have length := breadthFirst_expands begun ended
    rw [expandedNodes, List.length_map, ← List.length_map Entry.place, expanded,
      List.length_map] at length
    rw [expanded, ← length, ← List.prefix_iff_eq_take.1 among]

/-! ## Distances -/

/-- The least length of the walks to nodes with the fingerprint. -/
def Graph.IsDistance (graph : Graph N) (fingerprint : Digest) (distance : Nat) : Prop :=
  IsLeast {bound | graph.Within bound fingerprint} distance

/-- The first node with a fingerprint is as near to the root as any other with it. -/
theorem Graph.isDistance_of_mem_keptLevels {place : N × Nat}
    (kept : place ∈ graph.keptLevels .structural k) :
    graph.IsDistance (Fingerprinted.fingerprint place.1) place.2 := by
  obtain ⟨within, level⟩ := Graph.mem_levels.1 ((Visited.admitted_sublist _ _).subset kept)
  obtain ⟨walk, reached, length⟩ := Graph.mem_level.1 level
  refine ⟨⟨walk, place.1, reached, length.le, rfl⟩, ?_⟩
  rintro bound ⟨other, node, ends, short, same⟩
  apply Nat.le_trans _ short
  apply Nat.le_of_not_lt
  intro nearer
  have earlier : (node, other.length) ∈ graph.levels k :=
    Graph.mem_levels.2 ⟨nearer.trans within, Graph.mem_level.2 ⟨other, ends, rfl⟩⟩
  have covered := Visited.admitted_covers_shallow (.empty .structural) (Graph.levels_ascending k) earlier
  rw [Visited.knows_empty, Bool.false_eq_true, false_or] at covered
  obtain ⟨first, admitted, alike, shallow⟩ := covered
  have distinct := (Visited.admitted_apart (v := .empty .structural) rfl (graph.levels k)).2
  obtain rfl := List.inj_on_of_nodup_map distinct admitted kept (alike.trans same)
  exact absurd shallow (Nat.not_le_of_lt nearer)

/-- The nodes of kept levels are expanded at their distances from the root, the nearer ones first. -/
theorem exists_distances_of_counted {K : Type} {steps : List (Step N K)} {places : List (N × Nat)}
    (among : places <+: graph.keptLevels .structural k)
    (expanded : (expandedEntries steps).map Entry.place = places.map counted) :
    ∃ distances : List Nat, distances.Pairwise (· ≤ ·) ∧
      List.Forall₂ (fun e distance =>
          graph.IsDistance (Fingerprinted.fingerprint e.node) distance ∧
            e.node ∈ graph.level distance ∧ e.depth = min distance maxCountedDepth)
        (expandedEntries steps) distances := by
  have among_levels : places.Sublist (graph.levels k) :=
    among.sublist.trans (Visited.admitted_sublist _ _)
  have paired : List.Forall₂ (fun e place => Entry.place e = counted place)
      (expandedEntries steps) places := by
    rw [← List.forall₂_map_right_iff, ← List.forall₂_map_left_iff, expanded]
    exact List.forall₂_same.2 fun _ _ => rfl
  refine ⟨places.map Prod.snd, List.pairwise_map.2 ((Graph.levels_ascending k).sublist among_levels), ?_⟩
  rw [List.forall₂_map_right_iff]
  refine List.forall₂_iff_zip.2 ⟨paired.length_eq, fun {e place} both => ?_⟩
  have here : place ∈ places := (List.of_mem_zip both).2
  have same : e.place = counted place := (List.forall₂_iff_zip.1 paired).2 both
  have node : e.node = place.1 := congrArg Prod.fst same
  rw [node]
  exact ⟨Graph.isDistance_of_mem_keptLevels (among.subset here),
    (Graph.mem_levels.1 (among_levels.subset here)).2, congrArg Prod.snd same⟩

/-! ## The order of expansion -/

/-- The fingerprints of the nodes that were expanded, in order. -/
def expandedFingerprints {K : Type} (steps : List (Step N K)) : List Digest :=
  (expandedNodes steps).map Fingerprinted.fingerprint

/-- The distinct fingerprints of the first levels, in the order in which they first occur. -/
def Graph.fingerprints (graph : Graph N) (k : Nat) : List Digest :=
  (((List.range k).flatMap graph.level).map Fingerprinted.fingerprint).eraseDups

theorem Graph.map_fingerprint_keptLevels (k : Nat) :
    (graph.keptLevels .structural k).map (fun place => Fingerprinted.fingerprint place.1) =
      graph.fingerprints k := by
  rw [Graph.keptLevels, Visited.map_fingerprint_admitted rfl, Graph.fingerprints,
    ← Graph.map_fst_levels, List.map_map]
  simp only [Visited.knows_empty, Bool.not_false, List.filter_true]
  rfl

omit [Fingerprinted N] in
theorem expandedNodes_of_counted {K : Type} {steps : List (Step N K)} {places : List (N × Nat)}
    (expanded : (expandedEntries steps).map Entry.place = places.map counted) :
    expandedNodes steps = places.map Prod.fst := by
  have nodes := congrArg (List.map Prod.fst) expanded
  rw [List.map_map, List.map_map] at nodes
  exact nodes

theorem expandedFingerprints_of_counted {K : Type} {steps : List (Step N K)}
    {places : List (N × Nat)}
    (expanded : (expandedEntries steps).map Entry.place = places.map counted) :
    expandedFingerprints steps =
      places.map fun place => Fingerprinted.fingerprint place.1 := by
  rw [expandedFingerprints, expandedNodes_of_counted expanded, List.map_map]
  rfl

/-- Without a bound on expansions every reachable fingerprint is expanded after some rounds: as many
as there are nodes kept of the levels down to one with this fingerprint. -/
theorem breadthFirst_expands_reachable (begun : breadthFirst graph policy = .ok start)
    (structural : policy.dedup = .structural) (coherent : graph.Coherent)
    (unlimited : policy.maxExpansions = none) {node : N} (reached : graph.Reachable node) :
    ∃ n, Fingerprinted.fingerprint node ∈ expandedFingerprints (start.rounds n).1 := by
  rcases reached with ⟨walk, ends⟩
  have level : (node, walk.length) ∈ graph.levels (walk.length + 1) :=
    Graph.mem_levels.2 ⟨Nat.lt_succ_self _, Graph.mem_level.2 ⟨walk, ends, rfl⟩⟩
  have covered := (Visited.empty .structural).admitted_covers level
  rw [Visited.knows_empty, Bool.false_eq_true, false_or] at covered
  obtain ⟨first, kept, same⟩ := covered
  let n := max (walk.length + 1) (graph.keptLevels .structural (walk.length + 1)).length
  have expanded := breadthFirst_takes_levels begun (fun _ => coherent) unlimited (Nat.le_refl n)
  have early : graph.keptLevels .structural (walk.length + 1) <+:
      (graph.keptLevels .structural n).take n :=
    List.prefix_take_iff.2 ⟨graph.keptLevels_mono .structural (Nat.le_max_left _ _),
      Nat.le_max_right _ _⟩
  refine ⟨n, ?_⟩
  rw [expandedFingerprints_of_counted expanded, structural, ← same]
  exact List.mem_map_of_mem (f := fun place => Fingerprinted.fingerprint place.1)
    (early.subset kept)

/-- A breadth-first search that keeps duplicates, without a bound on expansions, expands the levels
one after the other. If duplicates are suppressed and nodes with one fingerprint have children with
the same fingerprints, what it expands has the distinct fingerprints of the levels in the order in
which they first occur, and all of them if it ends for want of nodes. Every fingerprint is expanded
at its distance from the root, and, without a bound on expansions, every reachable one. All this is
said of rounds: to ask the search for items is to take some of them, and it can be asked until it has
taken any number. -/
theorem breadthFirst_in_level_order (graph : Graph N) (policy : Policy)
    (valid : policy.validate = .ok ()) :
    ∃ start, breadthFirst graph policy = .ok start ∧
      (policy.dedup = .off → policy.maxExpansions = none → ∀ n k, n ≤ k →
        expandedNodes (start.rounds n).1 = ((List.range k).flatMap graph.level).take n) ∧
      (policy.dedup = .structural → graph.Coherent →
        (∀ n k, n ≤ k →
          expandedFingerprints (start.rounds n).1 <+: graph.fingerprints k ∧
          ((start.rounds n).2.stats.termination = some .frontierExhausted →
            expandedFingerprints (start.rounds n).1 = graph.fingerprints k)) ∧
        (∀ n, (expandedFingerprints (start.rounds n).1).Nodup ∧
          ∃ distances : List Nat, distances.Pairwise (· ≤ ·) ∧
            List.Forall₂ (fun e distance =>
                graph.IsDistance (Fingerprinted.fingerprint e.node) distance ∧
                  e.node ∈ graph.level distance ∧ e.depth = min distance maxCountedDepth)
              (expandedEntries (start.rounds n).1) distances) ∧
        (policy.maxExpansions = none → ∀ node, graph.Reachable node →
          ∃ n, Fingerprinted.fingerprint node ∈ expandedFingerprints (start.rounds n).1)) ∧
      ∀ {E σ : Type} (goal : N → StateM σ (Except E Bool)) (state : σ),
        (∀ {after : σ} {items : List (Item N E)} {steps : List (Step N Unit)}
          {last : Traversal (Fifo N) N}, start.Pulled goal state items steps last after →
          ∃ n, expandedEntries steps = expandedEntries (start.rounds n).1 ∧
            last.stats.termination = (start.rounds n).2.stats.termination ∧
            testAll goal (expandedNodes steps) state = (items, after)) ∧
        ∀ n, ∃ items steps last after, start.Pulled goal state items steps last after ∧
          expandedEntries steps = expandedEntries (start.rounds n).1 := by
  obtain ⟨start, begun⟩ := exists_breadthFirst graph valid
  refine ⟨start, begun, fun off unlimited n k le => ?_, fun structural coherent =>
    ⟨fun n k le => ⟨?_, ?_⟩, fun n => ⟨?_, ?_⟩, fun unlimited node reached => ?_⟩,
    fun goal state => ⟨fun pulled => ?_, fun n => ?_⟩⟩
  · have expanded := breadthFirst_takes_levels begun (fun same => by rw [off] at same; cases same)
      unlimited le
    rw [expandedNodes_of_counted expanded, off, Graph.keptLevels, Visited.admitted_off,
      List.map_take, Graph.map_fst_levels]
  · obtain ⟨places, among, expanded⟩ := breadthFirst_expands_levels begun (fun _ => coherent) le
    rw [structural] at among
    rw [expandedFingerprints_of_counted expanded, ← Graph.map_fingerprint_keptLevels]
    exact among.map _
  · intro exhausted
    have expanded := breadthFirst_eq_levels_of_exhausted begun (fun _ => coherent) le exhausted
    rw [expandedFingerprints_of_counted expanded, structural, Graph.map_fingerprint_keptLevels]
  · obtain ⟨places, among, expanded⟩ :=
      breadthFirst_expands_levels begun (fun _ => coherent) (Nat.le_refl n)
    rw [structural] at among
    rw [expandedFingerprints_of_counted expanded]
    exact (Visited.admitted_apart (v := .empty .structural) rfl (graph.levels n)).2.sublist
      (among.sublist.map _)
  · obtain ⟨places, among, expanded⟩ :=
      breadthFirst_expands_levels begun (fun _ => coherent) (Nat.le_refl n)
    rw [structural] at among
    exact exists_distances_of_counted among expanded
  · exact breadthFirst_expands_reachable begun structural coherent unlimited reached
  · obtain ⟨n, same, verdicts, left⟩ := pulled.exists_rounds
    refine ⟨n, same.expanded, ?_, ?_⟩
    · rw [left]
      rfl
    · rw [same.expandedNodes_eq]
      exact verdicts
  · obtain ⟨items, steps, last, after, pulled, same, -⟩ := Traversal.exists_pulled goal start state n
    exact ⟨items, steps, last, after, pulled, same.expanded⟩

/-! ## A ring -/

/-- Three nodes in a ring, each with a way back to the first. -/
def ring : Graph Numbered where
  root := ⟨0⟩
  expand node := [⟨(node.number + 1) % 3⟩, ⟨0⟩]

/-- The ring is expanded level after level for ever if duplicates are kept, and once otherwise, also
when the search is asked for items. -/
theorem ring_in_level_order :
    (∃ all, breadthFirst ring { Policy.default with dedup := .off } = .ok all ∧
      expandedNodes (all.rounds 6).1 = [⟨0⟩, ⟨1⟩, ⟨0⟩, ⟨2⟩, ⟨0⟩, ⟨1⟩]) ∧
    ∃ once, breadthFirst ring .default = .ok once ∧
      (once.rounds 4).2.stats.termination = some .frontierExhausted ∧
      expandedFingerprints (once.rounds 4).1 = [⟨0⟩, ⟨1⟩, ⟨2⟩] ∧
      (∃ n, ⟨2⟩ ∈ expandedFingerprints (once.rounds n).1) ∧
      ∃ items steps last after, once.Pulled (detourGoal 2) () items steps last after ∧
        expandedFingerprints steps = [⟨0⟩, ⟨1⟩, ⟨2⟩] := by
  constructor
  · obtain ⟨all, begun, order, -⟩ :=
      breadthFirst_in_level_order ring { Policy.default with dedup := .off } rfl
    refine ⟨all, begun, ?_⟩
    rw [order rfl rfl 6 6 (Nat.le_refl 6)]
    decide
  · obtain ⟨once, begun, -, order, asked⟩ := breadthFirst_in_level_order ring .default rfl
    obtain ⟨first, -, all⟩ := order rfl ring.coherent_of_numbers
    have exhausted : (once.rounds 4).2.stats.termination = some .frontierExhausted := by
      rw [eq_of_breadthFirst begun]
      decide +kernel
    have expanded : expandedFingerprints (once.rounds 4).1 = [⟨0⟩, ⟨1⟩, ⟨2⟩] := by
      rw [(first 4 4 (Nat.le_refl 4)).2 exhausted]
      decide +kernel
    obtain ⟨items, steps, last, after, pulled, same⟩ := (asked (detourGoal 2) ()).2 4
    refine ⟨once, begun, exhausted, expanded, all rfl ⟨2⟩ ⟨[0, 0], rfl⟩, items, steps, last, after,
      pulled, ?_⟩
    rw [← expanded, expandedFingerprints, expandedNodes, same]
    rfl

end GrammarSearch
