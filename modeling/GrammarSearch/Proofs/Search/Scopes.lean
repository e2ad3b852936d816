import GrammarSearch.Proofs.Search.Images
import GrammarSearch.Proofs.Search.Unsuppressed

/-!
# Scopes of searches

The scope of the target type is handed down to every hole of every partial program, and nothing that
a search does depends on it. To give all holes another scope takes the graph of one target to that
of another (`programGraph_maps_rescope`), so searches for one type in two scopes mirror each other:
they differ in the scopes of the holes and in nothing else (`searches_ignore_scopes`).
-/

namespace GrammarSearch

variable {V F K E σ : Type}

/-! ## Partial programs in another scope -/

/-- The hole in another scope. -/
def Hole.rescope (scope : Scope) (h : Hole) : Hole := { h with type := ⟨h.type.ty, scope⟩ }

/-- What is seen of a partial program besides the scopes of its holes: its program, its fingerprint,
and the numbers, types and paths of its holes. -/
structure Appearance where
  program : Program
  fingerprint : Digest
  holes : List (Nat × Ty × List Nat)
deriving DecidableEq

namespace PartialProgram

/-- The partial program with all its holes in another scope. -/
def rescope (scope : Scope) (p : PartialProgram) : PartialProgram :=
  { p with holes := p.holes.map (Hole.rescope scope) }

def appearance (p : PartialProgram) : Appearance :=
  ⟨p.program, Fingerprinted.fingerprint p, p.holes.map fun h => (h.id, h.type.ty, h.path)⟩

variable {scope : Scope}

theorem fingerprint_rescope (p : PartialProgram) :
    Fingerprinted.fingerprint (p.rescope scope) = Fingerprinted.fingerprint p := rfl

theorem appearance_rescope (p : PartialProgram) : (p.rescope scope).appearance = p.appearance := by
  rw [appearance, fingerprint_rescope]
  simp [appearance, rescope, Hole.rescope, Function.comp_def]

theorem scope_of_mem_rescope {p : PartialProgram} {h : Hole}
    (member : h ∈ (p.rescope scope).holes) :
    h.type.scope = scope := by
  obtain ⟨hole, -, rfl⟩ := List.mem_map.1 member
  rfl

theorem rescope_rescope (p : PartialProgram) (other : Scope) :
    (p.rescope other).rescope scope = p.rescope scope := by
  simp [rescope, Hole.rescope, Function.comp_def]

/-- Fresh holes take their scope from the hole that they replace. -/
theorem freshHoles_rescope (replaced : Hole) (id position : Nat) (ts : List Ty) :
    freshHoles (replaced.rescope scope) id position ts =
      (freshHoles replaced id position ts).map (Hole.rescope scope) := by
  induction ts generalizing id position with
  | nil => rfl
  | cons t ts ih =>
    rw [freshHoles, freshHoles, ih, List.map_cons]
    rfl

theorem fill?_rescope (p : PartialProgram) (symbol : String) (arguments : List Ty) :
    (p.rescope scope).fill? symbol arguments =
      (p.fill? symbol arguments).map (rescope scope) := by
  obtain ⟨program, holes, nextId⟩ := p
  cases holes with
  | nil => rfl
  | cons selected rest =>
    have placeholders : Hole.placeholder ∘ Hole.rescope scope = Hole.placeholder := rfl
    simp only [rescope, fill?, List.map_cons, freshHoles_rescope, List.map_map, placeholders,
      Option.map_map]
    have path : (selected.rescope scope).path = selected.path := rfl
    rw [path]
    congr 1
    funext filled
    simp [rescope]

end PartialProgram

open PartialProgram

variable {g : Grammar V} {ty : Ty} {a b : Scope}

/-! ## Graphs of programs -/

/-- Which productions fill a hole is up to its type alone. -/
theorem Grammar.expand_rescope (g : Grammar V) (scope : Scope) (p : PartialProgram) :
    g.expand (p.rescope scope) = (g.expand p).map (rescope scope) := by
  have selected : (p.rescope scope).selected? = p.selected?.map (Hole.rescope scope) := by
    rw [selected?, rescope, List.head?_map, selected?]
  unfold Grammar.expand
  rw [selected]
  cases p.selected? with
  | none => rfl
  | some hole =>
    rw [Option.map_some]
    simp only [List.map_filterMap, fill?_rescope]
    rfl

theorem programGraph_maps_rescope (g : Grammar V) (ty : Ty) (a b : Scope) :
    (programGraph g ⟨ty, a⟩).Maps (rescope b) (programGraph g ⟨ty, b⟩) :=
  ⟨rfl, g.expand_rescope b⟩

/-- Every hole of every partial program has the scope of the target. -/
theorem scope_of_reachable {p : PartialProgram} (reached : (programGraph g ⟨ty, a⟩).Reachable p) :
    ∀ h ∈ p.holes, h.type.scope = a := by
  -- If the change of scope fixes a parent then it fixes the children, which are images under it.
  have fixed : p.rescope a = p := by
    refine Graph.Reachable.induction (motive := fun p => p.rescope a = p) rfl
      (fun parent child _ same member => ?_) reached
    have images : g.expand parent = (g.expand parent).map (rescope a) := by
      rw [← g.expand_rescope a, same]
    change child ∈ g.expand parent at member
    rw [images] at member
    obtain ⟨other, -, rfl⟩ := List.mem_map.1 member
    exact rescope_rescope other a
  rw [← fixed]
  exact fun h => scope_of_mem_rescope

/-! ## Searches -/

/-- What two searches for a type in two scopes have come to looks the same, and the holes of all
partial programs that each of them met have its own scope. -/
structure Asked.Unscoped (g : Grammar V) (ty : Ty) (a b : Scope)
    (x y : Asked F PartialProgram K E σ) : Prop where
  steps_eq : x.steps.map (Step.map appearance) = y.steps.map (Step.map appearance)
  items_eq : x.items.map (Item.map appearance) = y.items.map (Item.map appearance)
  state_eq : x.state = y.state
  stats_eq : x.traversal.stats = y.traversal.stats
  first_scopes : ∀ p ∈ met (programGraph g ⟨ty, a⟩) x.steps, ∀ h ∈ p.holes, h.type.scope = a
  second_scopes : ∀ p ∈ met (programGraph g ⟨ty, b⟩) y.steps, ∀ h ∈ p.holes, h.type.scope = b

/-- A search of the partial programs in another scope looks like the search that it mirrors, if the
goals look at programs only. -/
theorem Traversal.Mirrors.unscoped [Frontier F PartialProgram K] [LawfulFrontier F PartialProgram K]
    {R : F → F → Prop} {t u : Traversal F PartialProgram} {limits : Limits} {dedup : Dedup}
    (mirrors : t.Mirrors (rescope b) R u) (reflects : Reflects (rescope b) R)
    (first : t.Ledger (programGraph g ⟨ty, a⟩) limits dedup [])
    (second : u.Ledger (programGraph g ⟨ty, b⟩) limits dedup [])
    (goal : Program → StateM σ (Except E Bool)) (allowed : List Nat) (state : σ) :
    (t.asked (fun p => goal p.program) allowed state).Unscoped g ty a b
      (u.asked (fun p => goal p.program) allowed state) := by
  have asked := mirrors.asked (fun p => goal p.program) reflects allowed state
  refine ⟨?_, ?_, asked.state_eq, asked.traversal.stats_eq, fun p met => ?_, fun p met => ?_⟩
  · simp only [asked.steps_eq, List.map_map, Function.comp_def, Step.map_map, appearance_rescope]
    rfl
  · simp only [asked.items_eq, List.map_map, Function.comp_def, Item.map_map, appearance_rescope]
    rfl
  · exact scope_of_reachable (first.reachable_met_asked _ allowed state p met)
  · exact scope_of_reachable (second.reachable_met_asked _ allowed state p met)

/-- Scopes never influence a search. Two searches for one type in any two scopes, under one policy
and with goals and costs that look at programs only, expand partial programs that look the same in
the same order, hand out items that look the same and count the same, however often they are asked;
and all holes have the scope of their own search. -/
theorem searches_ignore_scopes (g : Grammar V) (ty : Ty) (a b : Scope) (policy : Policy) :
    (∀ e, policy.validate = .error e →
      breadthFirst (programGraph g ⟨ty, a⟩) policy = .error e ∧
      breadthFirst (programGraph g ⟨ty, b⟩) policy = .error e ∧
      ∀ costs, bestFirst (programGraph g ⟨ty, a⟩) costs policy = .error e ∧
        bestFirst (programGraph g ⟨ty, b⟩) costs policy = .error e) ∧
    (policy.validate = .ok () →
      (∃ start other, breadthFirst (programGraph g ⟨ty, a⟩) policy = .ok start ∧
        breadthFirst (programGraph g ⟨ty, b⟩) policy = .ok other ∧
        ∀ {E σ : Type} (goal : Program → StateM σ (Except E Bool)) (allowed : List Nat) (state : σ),
          (start.asked (fun p => goal p.program) allowed state).Unscoped g ty a b
            (other.asked (fun p => goal p.program) allowed state)) ∧
      ∀ costs : Costs Program, ∃ start other,
        bestFirst (programGraph g ⟨ty, a⟩) (costs.comap PartialProgram.program) policy = .ok start ∧
        bestFirst (programGraph g ⟨ty, b⟩) (costs.comap PartialProgram.program) policy = .ok other ∧
        ∀ {E σ : Type} (goal : Program → StateM σ (Except E Bool)) (allowed : List Nat) (state : σ),
          (start.asked (fun p => goal p.program) allowed state).Unscoped g ty a b
            (other.asked (fun p => goal p.program) allowed state)) := by
  have maps := programGraph_maps_rescope g ty a b
  refine ⟨fun e invalid => ?_, fun valid => ⟨?_, fun costs => ?_⟩⟩
  · exact ⟨breadthFirst_of_invalid _ invalid, breadthFirst_of_invalid _ invalid, fun costs =>
      ⟨bestFirst_of_invalid _ costs invalid, bestFirst_of_invalid _ costs invalid⟩⟩
  · obtain ⟨start, begun⟩ := exists_breadthFirst (programGraph g ⟨ty, a⟩) valid
    obtain ⟨other, begun'⟩ := exists_breadthFirst (programGraph g ⟨ty, b⟩) valid
    have mirrors : start.Mirrors (rescope b) (Fifo.Image (rescope b)) other := by
      have roots : Fifo.Image (rescope b) (Fifo.empty policy.dedup) (Fifo.empty policy.dedup) :=
        ⟨rfl, rfl, rfl⟩
      rw [eq_of_breadthFirst begun, eq_of_breadthFirst begun']
      exact ⟨maps, rfl, rfl, (roots.push fingerprint_rescope _ 0).2⟩
    exact ⟨start, other, begun, begun', mirrors.unscoped (Fifo.reflects fingerprint_rescope)
      (.of_breadthFirst begun) (.of_breadthFirst begun')⟩
  · obtain ⟨start, begun⟩ := exists_bestFirst (programGraph g ⟨ty, a⟩)
      (costs.comap PartialProgram.program) valid
    obtain ⟨other, begun'⟩ := exists_bestFirst (programGraph g ⟨ty, b⟩)
      (costs.comap PartialProgram.program) valid
    have mirrors : start.Mirrors (rescope b) (Costed.Image (rescope b)) other := by
      have same : costs.comap PartialProgram.program =
          (costs.comap PartialProgram.program).comap (rescope b) :=
        (Costs.comap_comap (rescope b) PartialProgram.program costs).symm
      have roots : Costed.Image (rescope b)
          (Costed.empty policy.dedup (costs.comap PartialProgram.program))
          (Costed.empty policy.dedup (costs.comap PartialProgram.program)) :=
        ⟨rfl, rfl, rfl, rfl, same⟩
      rw [eq_of_bestFirst begun, eq_of_bestFirst begun']
      exact ⟨maps, rfl, rfl, (roots.push fingerprint_rescope _ 0).2⟩
    exact ⟨start, other, begun, begun', mirrors.unscoped (Costed.reflects fingerprint_rescope)
      (.of_bestFirst begun) (.of_bestFirst begun')⟩

/-- Sums of one summand. -/
def Sample.single (p : Program) : StateM Unit (Except GoalError Bool) :=
  pure (.ok (p.nodeCount == 1))

/-- Sums cost as many nodes as they have. -/
def Sample.sizes : Costs Program := .memoized (.empty fun p => .ofNat p.nodeCount)

/-- Searches for sums look the same without variables and with all of them, and no search starts
without a budget. -/
theorem Sample.sums_ignore_scopes :
    ((⟨8, some 0, .structural⟩ : Policy).validate =
        .error ⟨"max_expansions must be at least 1"⟩ ∧
      breadthFirst (programGraph Sample.sums ⟨Sample.int, .permissive⟩) ⟨8, some 0, .structural⟩ =
        .error ⟨"max_expansions must be at least 1"⟩) ∧
    (Policy.bounded 2).validate = .ok () ∧
    (∃ start other,
      breadthFirst (programGraph Sample.sums ⟨Sample.int, .empty⟩) (.bounded 2) = .ok start ∧
      breadthFirst (programGraph Sample.sums ⟨Sample.int, .permissive⟩) (.bounded 2) = .ok other ∧
      (start.asked (fun p => Sample.single p.program) [9, 9] ()).Unscoped Sample.sums Sample.int
        .empty .permissive (other.asked (fun p => Sample.single p.program) [9, 9] ())) ∧
    ∃ start other,
      bestFirst (programGraph Sample.sums ⟨Sample.int, .empty⟩)
        (Sample.sizes.comap PartialProgram.program) (.bounded 2) = .ok start ∧
      bestFirst (programGraph Sample.sums ⟨Sample.int, .permissive⟩)
        (Sample.sizes.comap PartialProgram.program) (.bounded 2) = .ok other ∧
      (start.asked (fun p => Sample.single p.program) [9, 9] ()).Unscoped Sample.sums Sample.int
        .empty .permissive (other.asked (fun p => Sample.single p.program) [9, 9] ()) := by
  obtain ⟨refused, -⟩ := searches_ignore_scopes Sample.sums Sample.int .empty .permissive
    ⟨8, some 0, .structural⟩
  obtain ⟨breadth, best⟩ := (searches_ignore_scopes Sample.sums Sample.int .empty .permissive
    (.bounded 2)).2 rfl
  obtain ⟨start, other, begun, begun', alike⟩ := breadth
  obtain ⟨start', other', begunBest, begunBest', alikeBest⟩ := best Sample.sizes
  exact ⟨⟨rfl, (refused _ rfl).2.1⟩, rfl, ⟨start, other, begun, begun', alike _ _ _⟩,
    start', other', begunBest, begunBest', alikeBest _ _ _⟩

end GrammarSearch
