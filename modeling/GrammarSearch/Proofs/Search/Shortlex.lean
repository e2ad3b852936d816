import GrammarSearch.Proofs.Search.Course
import GrammarSearch.Proofs.Search.Enumeration
import GrammarSearch.Proofs.Search.LevelOrder
import GrammarSearch.Proofs.Search.ProgramTree
import GrammarSearch.Search.Goal

/-!
# Breadth-first search of programs

A breadth-first search of the graph of programs expands the partial programs in
the order of their derivations, shorter ones first, and leaves none out. So the
first goal it hands out is the smallest program that is a goal, and among
programs of one size the one that comes first in the order of declaration.
-/

namespace GrammarSearch

variable {V E σ : Type} {g : Grammar V} {target : ScopedTy} {policy : Policy}
  {start : Traversal (Fifo PartialProgram) PartialProgram}

/-! ## The order of expansion -/

theorem Grammar.Derives.nodup (plain : g.NoHoleConstant) {ds : List (List Nat)}
    {nodes : List PartialProgram} (derives : g.Derives target ds nodes) (distinct : ds.Nodup) :
    nodes.Nodup := by
  have mapped : (nodes.map some).Nodup := by
    rw [← derives]
    refine List.Nodup.map_on (fun d memberD e memberE same => ?_) distinct
    obtain ⟨p, -, derived⟩ := derives.exists_node memberD
    exact plain.derive?_inj derived (same ▸ derived)
  exact List.Nodup.of_map some mapped

/-- What is expanded after one more round comes first among the partial programs met. -/
theorem breadthFirst_expands_met (plain : g.NoHoleConstant)
    (begun : breadthFirst (programGraph g target) policy = .ok start) (n : Nat)
    (apart : Apart (programGraph g target) policy.dedup (start.rounds n).1) :
    expandedNodes (start.rounds (n + 1)).1 <+:
      met (programGraph g target) (start.rounds n).1 := by
  have tree : (programGraph g target).IsTree := plain.isTree
  have first := Traversal.Ledger.of_breadthFirst begun
  have distinct := first.nodup_expandedNodes tree n apart
  have among := breadthFirst_prefix_succ begun n
  rw [Traversal.Ledger.admitted_eq_of_nodup apart
    ((first.rounds n).nodup_met_of_nodup tree distinct)] at among
  have nodes := among.map Prod.fst
  rw [map_fst_offers, List.map_map] at nodes
  exact nodes

/-- The nodes are those of the first derivations, in order. -/
def Grammar.Enumerated (g : Grammar V) (target : ScopedTy) (nodes : List PartialProgram) : Prop :=
  ∃ ds, g.Derives target ds nodes ∧ g.Enumeration target ds

/-- After the first derivations come the next, whatever is met on the way. -/
theorem breadthFirst_enumerates_succ (plain : g.NoHoleConstant)
    (begun : breadthFirst (programGraph g target) policy = .ok start) {n : Nat}
    (apart : Apart (programGraph g target) policy.dedup (start.rounds n).1)
    (enumerated : g.Enumerated target (expandedNodes (start.rounds n).1)) :
    g.Enumerated target (expandedNodes (start.rounds (n + 1)).1) := by
  rcases enumerated with ⟨ds, derives, first⟩
  obtain ⟨es, among, next⟩ := derives.grow.exists_prefix
    (breadthFirst_expands_met plain begun n apart)
  exact ⟨es, next, first.grow.of_prefix among⟩

/-- As long as no two of the partial programs met have one fingerprint, the first derivations are
expanded, in order. -/
theorem breadthFirst_enumerates (plain : g.NoHoleConstant)
    (begun : breadthFirst (programGraph g target) policy = .ok start) (n : Nat)
    (apart : Apart (programGraph g target) policy.dedup (start.rounds n).1) :
    g.Enumerated target (expandedNodes (start.rounds n).1) := by
  induction n with
  | zero => exact ⟨[], rfl, .nil⟩
  | succ n ih =>
    have before := apart.of_prefix (Traversal.rounds_prefix (Nat.le_succ n))
    exact breadthFirst_enumerates_succ plain begun before (ih before)

/-! ## Every partial program in time -/

/-- While the partial programs expanded are small, those met have different fingerprints. -/
theorem apart_of_within (plain : g.NoHoleConstant)
    (begun : breadthFirst (programGraph g target) policy = .ok start) {count n : Nat}
    (free : policy.dedup = .structural → CollisionFree (g.upTo target (count + 1)))
    (within : ∀ p ∈ expandedNodes (start.rounds n).1, p.filledCount ≤ count) :
    Apart (programGraph g target) policy.dedup (start.rounds n).1 := by
  have reachable := ((Traversal.Ledger.of_breadthFirst begun).rounds n).reachable_expanded
  intro structural
  refine ((free structural).injOn_fingerprint plain fun p member => member.1).mono fun p here => ?_
  rcases List.mem_cons.1 here with rfl | later
  · exact (Grammar.exists_walk_iff (· ≤ count + 1)).1 ⟨[], rfl, Nat.zero_le _⟩
  · obtain ⟨parent, expanded, member⟩ := List.mem_flatMap.1 later
    have small := within parent expanded
    have grown := Grammar.filledCount_of_mem_expand (reachable parent expanded) member
    exact ⟨(reachable parent expanded).child member, by omega⟩

/-- Nothing large is expanded before all that is small. -/
theorem breadthFirst_small_first (plain : g.NoHoleConstant)
    (begun : breadthFirst (programGraph g target) policy = .ok start) {count : Nat}
    (free : policy.dedup = .structural → CollisionFree (g.upTo target (count + 1))) (n : Nat) :
    (∀ p ∈ expandedNodes (start.rounds n).1, p.filledCount ≤ count) ∨
      ∀ p ∈ g.upTo target count, p ∈ expandedNodes (start.rounds n).1 := by
  induction n with
  | zero => exact .inl fun p member => absurd member List.not_mem_nil
  | succ n ih =>
    rcases ih with within | all
    · have apart := apart_of_within plain begun free within
      obtain ⟨ds, derives, first⟩ := breadthFirst_enumerates_succ plain begun apart
        (breadthFirst_enumerates plain begun n apart)
      by_cases still : ∀ p ∈ expandedNodes (start.rounds (n + 1)).1, p.filledCount ≤ count
      · exact .inl still
      · refine .inr fun q ⟨reached, small⟩ => ?_
        simp only [not_forall] at still
        rcases still with ⟨p, expanded, large⟩
        obtain ⟨d, member, derived⟩ := derives.mem_nodes.1 expanded
        obtain ⟨e, derivedQ⟩ := Grammar.reachable_iff_derive?.1 reached
        rw [Grammar.filledCount_of_derive? derived] at large
        rw [Grammar.filledCount_of_derive? derivedQ] at small
        have before : Precedes e d := .of_length_lt (by omega)
        exact derives.mem_nodes.2
          ⟨e, first.closed d member e (by rw [derivedQ]; rfl) before, derivedQ⟩
    · refine .inr fun p member => ?_
      obtain ⟨more, longer⟩ := Traversal.rounds_prefix (t := start) (Nat.le_succ n)
      rw [← longer, expandedNodes_append]
      exact List.mem_append_left _ (all p member)

/-- A search that has nothing left has expanded everything. -/
theorem breadthFirst_expands_all (plain : g.NoHoleConstant)
    (begun : breadthFirst (programGraph g target) policy = .ok start)
    (unlimited : policy.maxExpansions = none) {n : Nat}
    (ended : (start.rounds n).2.ended = true)
    (apart : Apart (programGraph g target) policy.dedup (start.rounds n).1) {p : PartialProgram}
    (reached : (programGraph g target).Reachable p) : p ∈ expandedNodes (start.rounds n).1 := by
  have tree : (programGraph g target).IsTree := plain.isTree
  have first := Traversal.Ledger.of_breadthFirst begun
  have ledger := first.rounds n
  have empty : (start.rounds n).2.frontier.line = [] :=
    (Multiset.coe_eq_zero _).1 (ledger.exhausted (ledger.exhausted_of_ended unlimited ended))
  have order := breadthFirst_order begun n
  rw [empty, List.append_nil, Traversal.Ledger.admitted_eq_of_nodup apart
    (ledger.nodup_met_of_nodup tree (first.nodup_expandedNodes tree n apart))] at order
  have all : expandedNodes (start.rounds n).1 = met (programGraph g target) (start.rounds n).1 := by
    rw [← map_fst_offers, ← order, List.map_map]
    rfl
  refine reached.induction ?_ fun parent child _ expanded member => ?_
  · rw [all]
    exact List.mem_cons_self
  · rw [all]
    exact mem_met_of_expanded expanded member

/-- Every partial program is expanded after finitely many rounds. -/
theorem breadthFirst_reaches (plain : g.NoHoleConstant)
    (begun : breadthFirst (programGraph g target) policy = .ok start)
    (unlimited : policy.maxExpansions = none) {p : PartialProgram}
    (reached : (programGraph g target).Reachable p)
    (free : policy.dedup = .structural → CollisionFree (g.upTo target (p.filledCount + 1))) :
    ∃ n, p ∈ expandedNodes (start.rounds n).1 := by
  by_contra never
  rw [not_exists] at never
  have within : ∀ n, ∀ q ∈ expandedNodes (start.rounds n).1, q.filledCount ≤ p.filledCount := by
    intro n
    rcases breadthFirst_small_first plain begun free n with within | all
    · exact within
    · exact absurd (all p ⟨reached, Nat.le_refl _⟩) (never n)
  have apart n := apart_of_within plain begun free (within n)
  have live : ∀ n, (start.rounds n).2.ended = false := by
    intro n
    rw [← Bool.not_eq_true]
    exact fun ended => never n (breadthFirst_expands_all plain begun unlimited ended (apart n) reached)
  -- There are finitely many derivations of at most this length, and a round uses one of them up.
  let small := (List.range (p.filledCount + 1)).flatMap (g.level target)
  obtain ⟨ds, derives, first⟩ := breadthFirst_enumerates plain begun (small.length + 1)
    (apart (small.length + 1))
  have among : ds ⊆ small := by
    intro d member
    obtain ⟨q, expanded, derived⟩ := derives.exists_node member
    have size := within (small.length + 1) q expanded
    rw [Grammar.filledCount_of_derive? derived] at size
    exact List.mem_flatMap.2 ⟨d.length, List.mem_range.2 (by omega),
      Grammar.mem_level (by rw [derived]; rfl)⟩
  have fewer := (List.subperm_of_subset first.nodup among).length_le
  have rounds := congrArg List.length derives
  rw [List.length_map, List.length_map, breadthFirst_expands begun (live _)] at rounds
  omega

/-! ## The first goal -/

/-- The productions of a program in pre-order, by index. -/
def Grammar.preorder (g : Grammar V) (p : Program) : List Nat :=
  p.symbols.map fun symbol => g.symbols.idxOf symbol

theorem map_idxOf_eq {symbols known : List String} (distinct : known.Nodup) {indices : List Nat}
    (named : symbols.map some = indices.map fun index => known[index]?) :
    (symbols.map fun symbol => known.idxOf symbol) = indices := by
  induction symbols generalizing indices with
  | nil => exact (List.map_eq_nil_iff.1 named.symm).symm
  | cons symbol symbols ih =>
    cases indices with
    | nil => cases named
    | cons index indices =>
      obtain ⟨here, rest⟩ := List.cons.inj named
      obtain ⟨bound, rfl⟩ := List.getElem?_eq_some_iff.1 here.symm
      rw [List.map_cons, ih rest, distinct.idxOf_getElem index bound]

/-- A program without holes is derived by its productions in pre-order. -/
theorem Grammar.preorder_eq_of_derive? {p : PartialProgram} {indices : List Nat}
    (derived : g.derive? (.root target) indices = some p) (complete : p.isComplete = true) :
    g.preorder p.program = indices := by
  have closed : p.holes = [] := List.isEmpty_iff.1 complete
  have labels := (Grammar.laidOut_of_derive? derived).labels
  rw [closed, List.map_nil, List.append_nil] at labels
  have symbols := congrArg (List.map (Option.map Prod.fst)) labels
  apply map_idxOf_eq g.distinct
  simp only [Program.labelsList, List.append_nil, List.map_map] at symbols
  rw [← Program.map_fst_labels, List.map_map]
  refine symbols.trans (List.map_congr_left fun index _ => ?_)
  simp [Grammar.label?, Production.label, Function.comp_def]

theorem PartialProgram.filledCount_of_isComplete {p : PartialProgram}
    (complete : p.isComplete = true) : p.filledCount = p.program.nodeCount := by
  have closed : p.holes = [] := List.isEmpty_iff.1 complete
  rw [PartialProgram.filledCount, closed]
  rfl

/-- Of two programs the first is smaller, or has the same size and earlier productions. -/
def Grammar.ProgramPrecedes (g : Grammar V) (p q : Program) : Prop :=
  p.nodeCount < q.nodeCount ∨
    p.nodeCount = q.nodeCount ∧ List.Lex (· < ·) (g.preorder p) (g.preorder q)

/-- If some program is a goal, the first item is the program that comes before all others that are
goals. -/
theorem breadthFirst_first_goal (plain : g.NoHoleConstant)
    (begun : breadthFirst (programGraph g target) policy = .ok start)
    (unlimited : policy.maxExpansions = none)
    {goal : PartialProgram → StateM σ (Except E Bool)} {accepts : PartialProgram → Bool}
    (answers : ∀ p state, ((goal p).run state).1 = .ok (accepts p))
    (complete : ∀ p, (programGraph g target).Reachable p → accepts p = true → p.isComplete = true)
    {q : PartialProgram} (reached : (programGraph g target).Reachable q)
    (accepted : accepts q = true)
    (free : policy.dedup = .structural →
      CollisionFree (g.upTo target (q.program.nodeCount + 1))) :
    ∃ p, (programGraph g target).Reachable p ∧ accepts p = true ∧
      (∃ enough, ∀ rounds ≥ enough, ∀ state, (start.next goal rounds state).item = .goal p) ∧
      ∀ other, (programGraph g target).Reachable other → accepts other = true → other ≠ p →
        g.ProgramPrecedes p.program other.program := by
  let candidate (d : List Nat) : Prop := ∃ p, g.derive? (.root target) d = some p ∧ accepts p = true
  have some_candidate : ∃ d, candidate d := by
    obtain ⟨d, derived⟩ := Grammar.reachable_iff_derive?.1 reached
    exact ⟨d, q, derived, accepted⟩
  have wf : WellFounded Precedes := List.Shortlex.wf Nat.lt_wfRel.wf
  obtain ⟨d, ⟨p, derived, accepts_p⟩, least⟩ := wf.has_min {d | candidate d} some_candidate
  have reached_p := Grammar.reachable_iff_derive?.2 ⟨d, derived⟩
  -- No goal comes before `p`, in particular not `q`, so `p` is small enough not to collide.
  have later : ∀ other e, g.derive? (.root target) e = some other → accepts other = true →
      e = d ∨ Precedes d e := by
    intro other e derivedE accepts_other
    rcases Precedes.trichotomy d e with before | same | after
    · exact .inr before
    · exact .inl same.symm
    · exact absurd after (least e ⟨other, derivedE, accepts_other⟩)
  have size {other : PartialProgram} {e : List Nat} (derivedE : g.derive? (.root target) e = some other)
      (accepts_other : accepts other = true) : other.program.nodeCount = e.length := by
    have closed := complete other (Grammar.reachable_iff_derive?.2 ⟨e, derivedE⟩) accepts_other
    rw [← PartialProgram.filledCount_of_isComplete closed, Grammar.filledCount_of_derive? derivedE]
  have small : p.filledCount ≤ q.program.nodeCount := by
    obtain ⟨e, derivedQ⟩ := Grammar.reachable_iff_derive?.1 reached
    rw [size derivedQ accepted, Grammar.filledCount_of_derive? derived]
    rcases later q e derivedQ accepted with rfl | before
    · exact Nat.le_refl _
    · rcases List.shortlex_def.1 before with shorter | ⟨length, -⟩
      · exact Nat.le_of_lt shorter
      · exact Nat.le_of_eq length
  have free_p : policy.dedup = .structural → CollisionFree (g.upTo target (p.filledCount + 1)) :=
    fun structural => (free structural).mono (Grammar.upTo_mono (Nat.succ_le_succ small))
  refine ⟨p, reached_p, accepts_p, ?_, ?_⟩
  · obtain ⟨n, hit⟩ := breadthFirst_reaches plain begun unlimited reached_p free_p
    refine ⟨n, fun rounds enough state => ?_⟩
    have live : start.ended = false := by
      rw [eq_of_breadthFirst begun]
      rfl
    obtain ⟨first, k, item, only⟩ := Traversal.next_hits answers live hit accepts_p enough state
    obtain ⟨expanded, accepts_first⟩ := (only first).1 rfl
    have hit_p : p ∈ expandedNodes (start.rounds k).1 := by
      rcases breadthFirst_small_first plain begun free_p k with within | all
      · obtain ⟨ds, derives, segment⟩ := breadthFirst_enumerates plain begun k
          (apart_of_within plain begun free_p within)
        obtain ⟨e, member, derivedE⟩ := derives.mem_nodes.1 expanded
        refine derives.mem_nodes.2 ⟨d, ?_, derived⟩
        rcases later first e derivedE accepts_first with rfl | before
        · exact member
        · exact segment.closed e member d (by rw [derived]; rfl) before
      · exact all p ⟨reached_p, Nat.le_refl _⟩
    rw [item, (only p).2 ⟨hit_p, accepts_p⟩]
  · intro other reached_other accepts_other different
    obtain ⟨e, derivedE⟩ := Grammar.reachable_iff_derive?.1 reached_other
    have closed := complete other reached_other accepts_other
    have before : Precedes d e := by
      rcases later other e derivedE accepts_other with rfl | before
      · exact absurd (Option.some.inj (derivedE.symm.trans derived)) different
      · exact before
    rw [Grammar.ProgramPrecedes, size derived accepts_p, size derivedE accepts_other,
      Grammar.preorder_eq_of_derive? derived (complete p reached_p accepts_p),
      Grammar.preorder_eq_of_derive? derivedE closed]
    exact List.shortlex_def.1 before

/-- A breadth-first search without a bound on expansions expands the partial programs in the order
of their derivations, each once, and every one of them after finitely many rounds. If some program
is a goal, its first item is the first program that is one. -/
theorem breadthFirst_expands_in_order (plain : g.NoHoleConstant)
    (unlimited : policy.maxExpansions = none) :
    ∃ start, breadthFirst (programGraph g target) policy = .ok start ∧
      (∀ n, (policy.dedup = .structural →
          CollisionFree {p | p ∈ met (programGraph g target) (start.rounds n).1}) →
        (expandedNodes (start.rounds n).1).Nodup ∧
          g.Enumerated target (expandedNodes (start.rounds n).1)) ∧
      (∀ indices p, g.derive? (.root target) indices = some p → p.filledCount = indices.length) ∧
      (∀ p, (programGraph g target).Reachable p →
        (policy.dedup = .structural → CollisionFree (g.upTo target (p.filledCount + 1))) →
        ∃ n, p ∈ expandedNodes (start.rounds n).1) ∧
      ∀ (E σ : Type) (goal : PartialProgram → StateM σ (Except E Bool))
        (accepts : PartialProgram → Bool),
        (∀ p state, ((goal p).run state).1 = .ok (accepts p)) →
        (∀ p, (programGraph g target).Reachable p → accepts p = true → p.isComplete = true) →
        ∀ q, (programGraph g target).Reachable q → accepts q = true →
        (policy.dedup = .structural →
          CollisionFree (g.upTo target (q.program.nodeCount + 1))) →
        ∃ p, (programGraph g target).Reachable p ∧ accepts p = true ∧
          (∃ enough, ∀ rounds ≥ enough, ∀ state, (start.next goal rounds state).item = .goal p) ∧
          ∀ other, (programGraph g target).Reachable other → accepts other = true → other ≠ p →
            g.ProgramPrecedes p.program other.program := by
  have begun : ∃ start, breadthFirst (programGraph g target) policy = .ok start := by
    unfold breadthFirst Policy.validate
    rw [unlimited]
    exact ⟨_, rfl⟩
  rcases begun with ⟨start, begun⟩
  refine ⟨start, begun, fun n free => ?_, fun indices p => Grammar.filledCount_of_derive?,
    fun p reached free => breadthFirst_reaches plain begun unlimited reached free, ?_⟩
  · have apart : Apart (programGraph g target) policy.dedup (start.rounds n).1 :=
      fun structural => (free structural).injOn_fingerprint plain
        ((Traversal.Ledger.of_breadthFirst begun).rounds n).reachable_met
    have enumerated := breadthFirst_enumerates plain begun n apart
    rcases enumerated with ⟨ds, derives, first⟩
    exact ⟨derives.nodup plain first.nodup, ds, derives, first⟩
  · intro E σ goal accepts answers complete q reached accepted free
    exact breadthFirst_first_goal plain begun unlimited answers complete reached accepted free

/-- Sums of ones are expanded in order if duplicates are kept, and bits if they are suppressed. In
both cases a complete program is handed out. -/
theorem Sample.sums_in_order :
    (∃ start, breadthFirst (programGraph Sample.sums ⟨Sample.int, .empty⟩)
        { Policy.default with dedup := .off } = .ok start ∧
      (∀ n, Sample.sums.Enumerated ⟨Sample.int, .empty⟩ (expandedNodes (start.rounds n).1)) ∧
      ∃ p, p.isComplete = true ∧ ∃ enough, ∀ rounds ≥ enough, ∀ serial,
        (start.next Goal.complete rounds serial).item = .goal p) ∧
    ∃ start, breadthFirst (programGraph Sample.bits ⟨Sample.int, .empty⟩) .default = .ok start ∧
      (∀ n, Sample.bits.Enumerated ⟨Sample.int, .empty⟩ (expandedNodes (start.rounds n).1)) ∧
      ∃ p, p.isComplete = true ∧ ∃ enough, ∀ rounds ≥ enough, ∀ serial,
        (start.next Goal.complete rounds serial).item = .goal p := by
  constructor
  · obtain ⟨start, begun, order, -, -, goals⟩ := @breadthFirst_expands_in_order _ _
      ⟨Sample.int, .empty⟩ { Policy.default with dedup := .off } Sample.noHoleConstant_sums rfl
    have one : (programGraph Sample.sums ⟨Sample.int, .empty⟩).walk?
        (.root ⟨Sample.int, .empty⟩) [0] = some ⟨.leaf "one", [], 1⟩ := by decide
    obtain ⟨p, -, complete, first, -⟩ := goals GoalError Nat Goal.complete (·.isComplete)
      (fun _ _ => rfl) (fun _ _ complete => complete) ⟨.leaf "one", [], 1⟩ ⟨[0], one⟩ rfl
      (fun structural => by cases structural)
    exact ⟨start, begun, fun n => (order n fun structural => by cases structural).2, p, complete,
      first⟩
  · obtain ⟨start, begun, order, -, -, goals⟩ := @breadthFirst_expands_in_order _ _
      ⟨Sample.int, .empty⟩ .default Sample.noHoleConstant_bits rfl
    have one : (programGraph Sample.bits ⟨Sample.int, .empty⟩).walk?
        (.root ⟨Sample.int, .empty⟩) [1] = some ⟨.leaf "one", [], 1⟩ := by decide
    obtain ⟨p, -, complete, first, -⟩ := goals GoalError Nat Goal.complete (·.isComplete)
      (fun _ _ => rfl) (fun _ _ complete => complete) ⟨.leaf "one", [], 1⟩ ⟨[1], one⟩ rfl
      (fun _ => Sample.collisionFree_bits fun p here => here.1)
    have met_reachable (n : Nat) : ∀ q ∈ met (programGraph Sample.bits ⟨Sample.int, .empty⟩)
        (start.rounds n).1, (programGraph Sample.bits ⟨Sample.int, .empty⟩).Reachable q :=
      ((Traversal.Ledger.of_breadthFirst begun).rounds n).reachable_met
    exact ⟨start, begun,
      fun n => (order n fun _ => Sample.collisionFree_bits (met_reachable n)).2, p, complete, first⟩

end GrammarSearch
