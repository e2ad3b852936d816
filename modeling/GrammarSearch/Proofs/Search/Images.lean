import GrammarSearch.Proofs.Search.Simulation

/-!
# Frontiers of images

Let a map of nodes keep fingerprints. Then both frontiers answer alike for nodes and for their
images: a queue holds the images in the same order (`Fifo.reflects`), and a heap holds them in the
same places, if the images cost what the nodes cost (`Costed.reflects`).
-/

namespace GrammarSearch

variable {α β N M : Type}

/-! ## Queues -/

/-- The first element of a queue comes out, and leaves the others. -/
theorem Queue.exists_pop?_of_toList {q : Queue α} {a : α} {l : List α}
    (elements : q.toList = a :: l) :
    ∃ rest, q.pop? = some (a, rest) ∧ rest.toList = l := by
  cases popped : q.pop? with
  | none =>
    rw [Queue.toList_of_pop?_eq_none popped] at elements
    cases elements
  | some taken =>
    obtain ⟨first, rest⟩ := taken
    rw [Queue.toList_of_pop? popped] at elements
    obtain ⟨rfl, rfl⟩ := List.cons.inj elements
    exact ⟨rest, rfl, rfl⟩

theorem Queue.pop?_eq_none_of_toList {q : Queue α} (elements : q.toList = []) : q.pop? = none := by
  cases popped : q.pop? with
  | none => rfl
  | some taken =>
    rw [Queue.toList_of_pop? popped] at elements
    cases elements

variable [Fingerprinted N] [Fingerprinted M] {f : N → M}

omit [Fingerprinted N] [Fingerprinted M] in
/-- The second queue holds the images of the nodes in the first, in the same order. -/
structure Fifo.Image (f : N → M) (a : Fifo N) (b : Fifo M) : Prop where
  entries_eq : b.queue.toList = a.queue.toList.map (Entry.map f)
  visited_eq : b.visited = a.visited
  highWater_eq : b.highWater = a.highWater

theorem Fifo.Image.push
    (kept : ∀ node : N, Fingerprinted.fingerprint (f node) = Fingerprinted.fingerprint node)
    {a : Fifo N} {b : Fifo M} (image : a.Image f b) (node : N) (depth : Nat) :
    (a.push node depth).1 = (b.push (f node) depth).1 ∧
      (a.push node depth).2.Image f (b.push (f node) depth).2 := by
  obtain ⟨entries, visited, highWater⟩ := image
  have sizes : b.queue.size = a.queue.size := by
    rw [Queue.size_eq_length, entries, List.length_map, ← Queue.size_eq_length]
  unfold Fifo.push
  rw [kept, visited]
  rcases a.visited.enlist (Fingerprinted.fingerprint node) with ⟨_ | _, after⟩
  · exact ⟨rfl, entries, visited, highWater⟩
  · refine ⟨rfl, ?_, rfl, ?_⟩
    · rw [Queue.toList_push, Queue.toList_push, entries, List.map_append]
      rfl
    · simp only [Queue.push, sizes, highWater]

theorem Fifo.reflects
    (kept : ∀ node : N, Fingerprinted.fingerprint (f node) = Fingerprinted.fingerprint node) :
    Reflects f (Fifo.Image f) where
  push node depth image := image.push kept node depth
  pop?_none {a b} image nothing := by
    have empty := Queue.toList_of_pop?_eq_none (Option.map_eq_none_iff.1 nothing)
    refine Option.map_eq_none_iff.2 (Queue.pop?_eq_none_of_toList ?_)
    rw [image.entries_eq, empty]
    rfl
  pop?_some {a rest b entry} image popped := by
    obtain ⟨⟨first, queue⟩, taken, same⟩ := Option.map_eq_some_iff.1 popped
    obtain ⟨rfl, rfl⟩ := Prod.mk.inj same
    have elements : b.queue.toList = first.map f :: queue.toList.map (Entry.map f) := by
      rw [image.entries_eq, Queue.toList_of_pop? taken, List.map_cons]
    obtain ⟨other, taken', entries⟩ := Queue.exists_pop?_of_toList elements
    exact ⟨{ b with queue := other }, Option.map_eq_some_iff.2 ⟨_, taken', rfl⟩, entries,
      image.visited_eq, image.highWater_eq⟩
  highWater image := image.highWater_eq.symm

/-! ## Heaps -/

/-- The heap of the images, in the same places. -/
def Heap.map (φ : α → β) : Heap α → Heap β
  | .empty => .empty
  | .node size least left right => .node size (φ least) (left.map φ) (right.map φ)

@[simp] theorem Heap.size_map (φ : α → β) (h : Heap α) : (h.map φ).size = h.size := by
  cases h <;> rfl

theorem Heap.map_join (φ : α → β) (least : α) (a b : Heap α) :
    (Heap.join least a b).map φ = Heap.join (φ least) (a.map φ) (b.map φ) := by
  unfold Heap.join
  rw [Heap.size_map, Heap.size_map]
  split <;> rfl

section Order

variable {φ : α → β} {le : α → α → Bool} {le' : β → β → Bool}
  (same : ∀ a b, le' (φ a) (φ b) = le a b)
include same

/-- Elements whose images are ordered like them are merged like their images. -/
theorem Heap.map_merge (a b : Heap α) :
    (Heap.merge le a b).map φ = Heap.merge le' (a.map φ) (b.map φ) := by
  induction a generalizing b with
  | empty => rfl
  | node size least left right _ ihRight =>
    induction b with
    | empty => rfl
    | node size' least' left' right' _ ih =>
      simp only [Heap.merge, Heap.mergeNode, Heap.map, same] at ih ihRight ⊢
      split
      · rw [Heap.map_join, ihRight]
        rfl
      · rw [Heap.map_join, ih]

theorem Heap.map_push (a : α) (h : Heap α) : (h.push le a).map φ = (h.map φ).push le' (φ a) :=
  Heap.map_merge same _ h

theorem Heap.pop?_map (h : Heap α) :
    (h.map φ).pop? le' = (h.pop? le).map fun (a, rest) => (φ a, rest.map φ) := by
  cases h with
  | empty => rfl
  | node size least left right =>
    simp only [Heap.map, Heap.pop?, Option.map_some, Heap.map_merge same]

end Order

/-! ## Cost functions -/

omit [Fingerprinted N] [Fingerprinted M] in
/-- The cost function that gives a node the cost of its image. -/
def Costs.comap (f : N → M) : Costs M → Costs N
  | .direct cost => .direct fun node => cost (f node)
  | .memoized memo =>
    .memoized ⟨fun node => memo.compute (f node), memo.table, memo.hits, memo.misses⟩

omit [Fingerprinted N] [Fingerprinted M] in
theorem Costs.comap_comap {L : Type} (f : N → M) (h : M → L) (costs : Costs L) :
    (costs.comap h).comap f = costs.comap (h ∘ f) := by
  cases costs <;> rfl

theorem Costs.get_comap
    (kept : ∀ node : N, Fingerprinted.fingerprint (f node) = Fingerprinted.fingerprint node)
    (costs : Costs M) (node : N) :
    (costs.comap f).get node = ((costs.get (f node)).1, (costs.get (f node)).2.comap f) := by
  cases costs with
  | direct cost => rfl
  | memoized memo =>
    have alike := congrArg Digest.value (kept node)
    simp only [Costs.comap, Costs.get]
    cases found : memo.table[(Fingerprinted.fingerprint (f node)).value]? with
    | some value => rw [Memo.get_of_some found, Memo.get_of_some (by rw [← alike]; exact found)]
    | none =>
      rw [Memo.get_of_none found, Memo.get_of_none (by rw [← alike]; exact found), alike]

/-! ## The frontier of best-first search -/

omit [Fingerprinted N] [Fingerprinted M] in
/-- The second frontier holds the images of the nodes in the first, in the same places, and gives
the images the costs that the first gives the nodes. -/
structure Costed.Image (f : N → M) (a : Costed N) (b : Costed M) : Prop where
  heap_eq : b.frontier.heap = a.frontier.heap.map (Entry.map f)
  visited_eq : b.frontier.visited = a.frontier.visited
  nextOrder_eq : b.frontier.nextOrder = a.frontier.nextOrder
  highWater_eq : b.frontier.highWater = a.frontier.highWater
  costs_eq : a.costs = b.costs.comap f

omit [Fingerprinted N] [Fingerprinted M] in
theorem BestFirst.entryLe_map (x y : Entry N Key) :
    BestFirst.entryLe (x.map f) (y.map f) = BestFirst.entryLe x y := rfl

theorem Costed.Image.push
    (kept : ∀ node : N, Fingerprinted.fingerprint (f node) = Fingerprinted.fingerprint node)
    {a : Costed N} {b : Costed M} (image : a.Image f b) (node : N) (depth : Nat) :
    (a.push node depth).1 = (b.push (f node) depth).1 ∧
      (a.push node depth).2.Image f (b.push (f node) depth).2 := by
  obtain ⟨heap, visited, nextOrder, highWater, costs⟩ := image
  have asked := Costs.get_comap kept b.costs node
  unfold Costed.push BestFirst.push
  rw [kept, visited, costs, asked]
  rcases a.frontier.visited.enlist (Fingerprinted.fingerprint node) with ⟨_ | _, after⟩
  · exact ⟨rfl, heap, visited, nextOrder, highWater, rfl⟩
  · have pushed (entry : Entry N Key) :
        b.frontier.heap.push BestFirst.entryLe (entry.map f) =
          (a.frontier.heap.push BestFirst.entryLe entry).map (Entry.map f) := by
      rw [heap, Heap.map_push BestFirst.entryLe_map]
    have entered := pushed ⟨node, depth, ⟨(b.costs.get (f node)).1, a.frontier.nextOrder⟩⟩
    simp only [nextOrder, highWater]
    refine ⟨trivial, entered, rfl, rfl, ?_, rfl⟩
    exact congrArg (max _) ((congrArg Heap.size entered).trans (Heap.size_map _ _))

theorem Costed.reflects
    (kept : ∀ node : N, Fingerprinted.fingerprint (f node) = Fingerprinted.fingerprint node) :
    Reflects f (Costed.Image f) where
  push node depth image := image.push kept node depth
  pop?_none {a b} image nothing := by
    have empty := Option.map_eq_none_iff.1 (Option.map_eq_none_iff.1 nothing)
    refine Option.map_eq_none_iff.2 (Option.map_eq_none_iff.2 ?_)
    rw [image.heap_eq, Heap.pop?_map BestFirst.entryLe_map, empty]
    rfl
  pop?_some {a rest b entry} image popped := by
    obtain ⟨heap, out, rfl⟩ := Costed.exists_heap_of_pop? popped
    have out' : b.frontier.heap.pop? BestFirst.entryLe =
        some (entry.map f, heap.map (Entry.map f)) := by
      rw [image.heap_eq, Heap.pop?_map BestFirst.entryLe_map, out]
      rfl
    refine ⟨⟨{ b.frontier with heap := heap.map (Entry.map f) }, b.costs⟩, ?_, rfl,
      image.visited_eq, image.nextOrder_eq, image.highWater_eq, image.costs_eq⟩
    exact Option.map_eq_some_iff.2 ⟨_, Option.map_eq_some_iff.2 ⟨_, out', rfl⟩, rfl⟩
  highWater image := image.highWater_eq.symm

end GrammarSearch
