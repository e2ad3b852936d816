import GrammarSearch.Proofs.Search.Forgetting

/-!
# Searches that mirror each other

Two searches may run over different nodes, and in frontiers of different kinds, and still take the
same rounds up to a map from the nodes of the one to those of the other: the map takes children to
children, and the frontiers answer alike to whatever a search does to them (`Reflects`). Then they
count the same and hand out the same items up to the map, whenever they are asked
(`Traversal.Mirrors.asked`). If the map is the identity, the searches cannot be told apart at all
(`Traversal.Like.asked`).
-/

namespace GrammarSearch

variable {F G N M K E σ : Type}

/-! ## Nodes under a map -/

/-- The entry of the image of a node. -/
def Entry.map (f : N → M) (entry : Entry N K) : Entry M K := ⟨f entry.node, entry.depth, entry.key⟩

@[simp] theorem Entry.node_map (f : N → M) (entry : Entry N K) :
    (entry.map f).node = f entry.node := rfl

@[simp] theorem Entry.depth_map (f : N → M) (entry : Entry N K) :
    (entry.map f).depth = entry.depth := rfl

/-- The round of a search of the images. -/
def Step.map (f : N → M) : Step N K → Step M K
  | .expanded number entry children => .expanded number (entry.map f) (children.map f)
  | .pruned entry => .pruned (entry.map f)
  | .finished stats => .finished stats

/-- The item of a search of the images. -/
def Item.map (f : N → M) : Item N E → Item M E
  | .goal node => .goal (f node)
  | .failed e => .failed e
  | .ended => .ended
  | .unfinished => .unfinished

theorem Step.map_id (step : Step N K) : step.map id = step := by
  cases step <;> simp [Step.map, Entry.map]

theorem Item.map_id (item : Item N E) : item.map id = item := by
  cases item <;> rfl

theorem Step.map_map {L : Type} (f : N → M) (h : M → L) (step : Step N K) :
    (step.map f).map h = step.map (h ∘ f) := by
  cases step <;> simp [Step.map, Entry.map]

theorem Item.map_map {L : Type} (f : N → M) (h : M → L) (item : Item N E) :
    (item.map f).map h = item.map (h ∘ f) := by
  cases item <;> rfl

/-- The map takes the root of a graph to the root of another, and children to children. -/
structure Graph.Maps (f : N → M) (a : Graph N) (b : Graph M) : Prop where
  root_eq : b.root = f a.root
  expand_eq : ∀ node, b.expand (f node) = (a.expand node).map f

theorem Graph.maps_id {a b : Graph N} : a.Maps id b ↔ a = b := by
  constructor
  · rintro ⟨root, expand⟩
    obtain ⟨_, _⟩ := a
    obtain ⟨_, _⟩ := b
    obtain rfl := root
    obtain rfl := funext fun node => (expand node).trans (List.map_id _)
    rfl
  · rintro rfl
    exact ⟨rfl, fun node => (List.map_id _).symm⟩

/-! ## Mirroring -/

/-- The second search is over the images of the nodes of the first, and otherwise differs from it at
most in the frontier; the frontiers are related. -/
structure Traversal.Mirrors (f : N → M) (R : F → G → Prop) (t : Traversal F N)
    (u : Traversal G M) : Prop where
  maps : t.graph.Maps f u.graph
  limits_eq : t.limits = u.limits
  stats_eq : t.stats = u.stats
  related : R t.frontier u.frontier

/-- The second pull has the image of the first one's item, took the images of its rounds, and leaves
a search that mirrors the one left by the first. -/
structure Pull.Mirrors (f : N → M) (R : F → G → Prop) (a : Pull F N K E σ) (b : Pull G M K E σ) :
    Prop where
  item_eq : b.item = a.item.map f
  steps_eq : b.steps = a.steps.map (Step.map f)
  state_eq : a.state = b.state
  traversal : a.traversal.Mirrors f R b.traversal

/-- The second search has handed out the images of the first one's items, has taken the images of
its rounds, and mirrors it. -/
structure Asked.Mirrors (f : N → M) (R : F → G → Prop) (a : Asked F N K E σ)
    (b : Asked G M K E σ) : Prop where
  items_eq : b.items = a.items.map (Item.map f)
  steps_eq : b.steps = a.steps.map (Step.map f)
  state_eq : a.state = b.state
  traversal : a.traversal.Mirrors f R b.traversal

/-- Related frontiers answer alike, the second for the images of the nodes, and stay related. -/
structure Reflects [Frontier F N K] [Frontier G M K] (f : N → M) (R : F → G → Prop) : Prop where
  push : ∀ {a : F} {b : G} (node : N) (depth : Nat), R a b →
    (Frontier.push a node depth).1 = (Frontier.push b (f node) depth).1 ∧
      R (Frontier.push a node depth).2 (Frontier.push b (f node) depth).2
  pop?_none : ∀ {a : F} {b : G}, R a b → Frontier.pop? a = none → Frontier.pop? b = none
  pop?_some : ∀ {a rest : F} {b : G} {entry : Entry N K}, R a b →
    Frontier.pop? a = some (entry, rest) →
      ∃ other, Frontier.pop? b = some (entry.map f, other) ∧ R rest other
  highWater : ∀ {a : F} {b : G}, R a b → Frontier.highWater a = Frontier.highWater b

section Mirrors

variable {f : N → M} {R : F → G → Prop} {t : Traversal F N} {u : Traversal G M}

/-! ## One round -/

theorem Traversal.Mirrors.finish (mirrors : t.Mirrors f R u) (reason : Termination) :
    (u.finish (K := K) reason).1 = (t.finish (K := K) reason).1.map f ∧
      (t.finish (K := K) reason).2.Mirrors f R (u.finish (K := K) reason).2 := by
  obtain ⟨maps, limits, stats, related⟩ := mirrors
  refine ⟨?_, maps, limits, ?_, related⟩ <;> simp only [Traversal.finish, stats, Step.map]

theorem Traversal.Mirrors.prune (mirrors : t.Mirrors f R u) (entry : Entry N K) :
    (u.prune (entry.map f)).1 = (t.prune entry).1.map f ∧
      (t.prune entry).2.Mirrors f R (u.prune (entry.map f)).2 := by
  obtain ⟨maps, limits, stats, related⟩ := mirrors
  refine ⟨rfl, maps, limits, ?_, related⟩
  simp only [Traversal.prune, stats]

variable [Frontier F N K] [Frontier G M K]

theorem Reflects.offer (reflects : Reflects f R) {a : F} {b : G} (related : R a b) (depth : Nat)
    (children : List N) :
    (Traversal.offer depth a children).1 = (Traversal.offer depth b (children.map f)).1 ∧
      R (Traversal.offer depth a children).2 (Traversal.offer depth b (children.map f)).2 := by
  induction children generalizing a b with
  | nil => exact ⟨rfl, related⟩
  | cons child children ih =>
    obtain ⟨fresh, after⟩ := reflects.push child depth related
    obtain ⟨duplicates, last⟩ := ih after
    refine ⟨?_, last⟩
    simp only [List.map_cons, Traversal.offer, fresh, duplicates]

theorem Traversal.Mirrors.expand (reflects : Reflects f R) (mirrors : t.Mirrors f R u)
    (entry : Entry N K) :
    (u.expand (entry.map f)).1 = (t.expand entry).1.map f ∧
      (t.expand entry).2.Mirrors f R (u.expand (entry.map f)).2 := by
  obtain ⟨maps, limits, stats, related⟩ := mirrors
  obtain ⟨duplicates, after⟩ :=
    reflects.offer related (childDepth entry.depth) (t.graph.expand entry.node)
  refine ⟨?_, maps, limits, ?_, ?_⟩
  · simp only [Traversal.expand, stats, Entry.node_map, maps.expand_eq, Step.map]
  · simp only [Traversal.expand, stats, Entry.node_map, Entry.depth_map, maps.expand_eq,
      duplicates, reflects.highWater after, List.length_map, List.isEmpty_map]
  · simp only [Traversal.expand, Entry.node_map, Entry.depth_map, maps.expand_eq]
    exact after

/-- An entry that comes out too deep is discarded. -/
theorem Traversal.step_of_deep {entry : Entry N K} {rest : F}
    (unspent : t.limits.spent t.stats.expansions = false)
    (popped : Frontier.pop? t.frontier = some (entry, rest))
    (deep : t.limits.prunes entry.depth = true) :
    t.step = Traversal.prune { t with frontier := rest } entry := by
  rw [Traversal.step, unspent, popped]
  simp [deep]

/-- A search takes the image of the round of the search that it mirrors. -/
theorem Traversal.Mirrors.step (reflects : Reflects f R) (mirrors : t.Mirrors f R u) :
    u.step.1 = t.step.1.map f ∧ t.step.2.Mirrors f R u.step.2 := by
  have next {rest : F} {other : G} (related : R rest other) :
      Traversal.Mirrors f R { t with frontier := rest } { u with frontier := other } :=
    ⟨mirrors.maps, mirrors.limits_eq, mirrors.stats_eq, related⟩
  rcases t.step_cases with ⟨spent, step⟩ | ⟨unspent, none, step⟩ |
    ⟨entry, rest, unspent, popped, deep, step⟩ | ⟨entry, rest, unspent, popped, shallow, step⟩ <;>
    rw [step]
  · rw [mirrors.limits_eq, mirrors.stats_eq] at spent
    rw [Traversal.step_of_spent spent]
    exact mirrors.finish _
  · rw [mirrors.limits_eq, mirrors.stats_eq] at unspent
    rw [Traversal.step_of_none unspent (reflects.pop?_none mirrors.related none)]
    exact mirrors.finish _
  · obtain ⟨other, popped', related⟩ := reflects.pop?_some mirrors.related popped
    rw [mirrors.limits_eq, mirrors.stats_eq] at unspent
    rw [mirrors.limits_eq] at deep
    rw [Traversal.step_of_deep unspent popped' deep]
    exact (next related).prune entry
  · obtain ⟨other, popped', related⟩ := reflects.pop?_some mirrors.related popped
    rw [mirrors.limits_eq, mirrors.stats_eq] at unspent
    rw [mirrors.limits_eq] at shallow
    rw [Traversal.step_of_kept unspent popped' shallow]
    exact (next related).expand reflects entry

/-! ## Items -/

theorem Traversal.Mirrors.addGoals (mirrors : t.Mirrors f R u) (k : Nat) :
    (t.addGoals k).Mirrors f R (u.addGoals k) := by
  obtain ⟨maps, limits, stats, related⟩ := mirrors
  refine ⟨maps, limits, ?_, related⟩
  simp only [Traversal.addGoals, stats]

variable (goal : M → StateM σ (Except E Bool))

theorem Traversal.Mirrors.nextAfter (reflects : Reflects f R) (mirrors : t.Mirrors f R u)
    (rounds : Nat) (steps : List (Step N K)) (state : σ) :
    (Traversal.nextAfter (fun node => goal (f node)) rounds t steps state).Mirrors f R
      (Traversal.nextAfter goal rounds u (steps.map (Step.map f)) state) := by
  induction rounds generalizing t u steps state with
  | zero => exact ⟨rfl, List.map_reverse.symm, rfl, mirrors⟩
  | succ rounds ih =>
    obtain ⟨first, after⟩ := mirrors.step reflects
    have last : (steps.map (Step.map f)).reverse ++ [u.step.1] =
        (steps.reverse ++ [t.step.1]).map (Step.map f) := by
      rw [first, List.map_append, List.map_reverse, List.map_singleton]
    have more : u.step.1 :: steps.map (Step.map f) = (t.step.1 :: steps).map (Step.map f) := by
      rw [first, List.map_cons]
    cases step : t.step.1 with
    | expanded number entry children =>
      have image : u.step.1 = .expanded number (entry.map f) (children.map f) := by
        rw [first, step]
        rfl
      rw [Traversal.nextAfter_of_expanded step, Traversal.nextAfter_of_expanded image, last, more,
        Entry.node_map]
      rcases (goal (f entry.node)).run state with ⟨e | _ | _, answered⟩
      · exact ⟨rfl, rfl, rfl, after⟩
      · exact ih after _ _
      · exact ⟨rfl, rfl, rfl, after.addGoals 1⟩
    | pruned entry =>
      have image : u.step.1 = .pruned (entry.map f) := by
        rw [first, step]
        rfl
      rw [Traversal.nextAfter_of_pruned step, Traversal.nextAfter_of_pruned image, more]
      exact ih after _ _
    | finished stats =>
      have image : u.step.1 = .finished stats := by
        rw [first, step]
        rfl
      rw [Traversal.nextAfter_of_finished step, Traversal.nextAfter_of_finished image, last]
      exact ⟨rfl, rfl, rfl, after⟩

theorem Traversal.Mirrors.next (reflects : Reflects f R) (mirrors : t.Mirrors f R u) (rounds : Nat)
    (state : σ) :
    (t.next (fun node => goal (f node)) rounds state).Mirrors f R (u.next goal rounds state) := by
  unfold Traversal.next
  rw [← mirrors.stats_eq]
  split
  · exact ⟨rfl, rfl, rfl, mirrors⟩
  · exact mirrors.nextAfter goal reflects rounds [] state

/-- Searches that mirror each other hand out the same items up to the map, pull by pull. -/
theorem Traversal.Mirrors.asked (reflects : Reflects f R) (mirrors : t.Mirrors f R u)
    (allowed : List Nat) (state : σ) :
    (t.asked (fun node => goal (f node)) allowed state).Mirrors f R
      (u.asked goal allowed state) := by
  induction allowed generalizing t u state with
  | nil => exact ⟨rfl, rfl, rfl, mirrors⟩
  | cons rounds allowed ih =>
    have first := mirrors.next goal reflects rounds state
    have rest := ih first.traversal (t.next (fun node => goal (f node)) rounds state).state
    rw [first.state_eq] at rest
    simp only [Traversal.asked, first.state_eq, first.item_eq, first.steps_eq]
    refine ⟨?_, ?_, rest.state_eq, rest.traversal⟩
    · rw [List.map_cons, rest.items_eq]
    · rw [List.map_append, rest.steps_eq]

end Mirrors

/-! ## Searches that cannot be told apart -/

variable {R : F → G → Prop}

/-- Two searches differ at most in their frontiers, and these are related. -/
structure Traversal.Like (R : F → G → Prop) (t : Traversal F N) (u : Traversal G N) : Prop where
  graph_eq : t.graph = u.graph
  limits_eq : t.limits = u.limits
  stats_eq : t.stats = u.stats
  related : R t.frontier u.frontier

/-- Two searches have handed out the same items, have taken the same rounds, and are alike. -/
structure Asked.Like (R : F → G → Prop) (a : Asked F N K E σ) (b : Asked G N K E σ) : Prop where
  items_eq : a.items = b.items
  steps_eq : a.steps = b.steps
  state_eq : a.state = b.state
  traversal : a.traversal.Like R b.traversal

variable [Frontier F N K] [Frontier G N K]

/-- Related frontiers answer alike, and stay related. -/
structure Indistinct (R : F → G → Prop) : Prop where
  push : ∀ {f : F} {g : G} (node : N) (depth : Nat), R f g →
    (Frontier.push f node depth).1 = (Frontier.push g node depth).1 ∧
      R (Frontier.push f node depth).2 (Frontier.push g node depth).2
  pop?_none : ∀ {f : F} {g : G}, R f g → Frontier.pop? f = none → Frontier.pop? g = none
  pop?_some : ∀ {f rest : F} {g : G} {entry : Entry N K}, R f g →
    Frontier.pop? f = some (entry, rest) →
      ∃ other, Frontier.pop? g = some (entry, other) ∧ R rest other
  highWater : ∀ {f : F} {g : G}, R f g → Frontier.highWater f = Frontier.highWater g

theorem Indistinct.reflects (same : Indistinct R) : Reflects id R :=
  ⟨same.push, same.pop?_none, same.pop?_some, same.highWater⟩

/-- Searches that are alike hand out the same items, pull by pull. -/
theorem Traversal.Like.asked {t : Traversal F N} {u : Traversal G N} (same : Indistinct R)
    (like : t.Like R u) (goal : N → StateM σ (Except E Bool)) (allowed : List Nat) (state : σ) :
    (t.asked goal allowed state).Like R (u.asked goal allowed state) := by
  have mirrors : t.Mirrors id R u :=
    ⟨Graph.maps_id.2 like.graph_eq, like.limits_eq, like.stats_eq, like.related⟩
  obtain ⟨items, steps, states, maps, limits, stats, related⟩ :=
    mirrors.asked goal same.reflects allowed state
  rw [List.map_id'' Item.map_id] at items
  rw [List.map_id'' Step.map_id] at steps
  exact ⟨items.symm, steps.symm, states, Graph.maps_id.1 maps, limits, stats, related⟩

end GrammarSearch
