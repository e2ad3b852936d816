import GrammarSearch.Proofs.Search.Frontiers
import GrammarSearch.Proofs.Search.Rounds
import Mathlib.Data.List.Induction

/-!
# Sizes of frontiers

A frontier keeps two numbers beside its entries, how many there are and how many there were at most.
Both are right for the queue of breadth-first and for the heap of best-first search
(`MeasuredFrontier`): whatever is pushed and taken out, the second is the greatest size that the
frontier has had after any of these changes (`max?_sizes`).

The changes that a search makes are known from the entries that came out of its frontier
(`Entry.changes`), so they tell all frontiers that the search has had, also those between two
children of one node (`frontiers`).
-/

namespace GrammarSearch

open LawfulFrontier

variable {α F N K : Type}

/-! ## Heaps -/

/-- The sizes that are kept in a heap are those of its trees. -/
def Heap.Sized : Heap α → Prop
  | .empty => True
  | .node size _ left right => size = left.size + right.size + 1 ∧ left.Sized ∧ right.Sized

theorem Heap.Sized.size_eq {h : Heap α} (sized : h.Sized) : h.size = h.toList.length := by
  induction h with
  | empty => rfl
  | node size least left right ihLeft ihRight =>
    obtain ⟨kept, sizedLeft, sizedRight⟩ := sized
    rw [Heap.size, kept, ihLeft sizedLeft, ihRight sizedRight, Heap.toList, List.length_cons,
      List.length_append]

theorem Heap.Sized.join {a b : Heap α} (first : a.Sized) (second : b.Sized) (least : α) :
    (Heap.join least a b).Sized := by
  unfold Heap.join
  split
  · exact ⟨by rw [Nat.add_comm a.size], second, first⟩
  · exact ⟨rfl, first, second⟩

theorem Heap.Sized.merge {a b : Heap α} (first : a.Sized) (second : b.Sized)
    (le : α → α → Bool) : (Heap.merge le a b).Sized := by
  -- The recursion is on the first heap, and for each of its right subtrees on the second.
  induction a generalizing b with
  | empty => exact second
  | node size least left right _ ihRight =>
    induction b with
    | empty => exact first
    | node size' least' left' right' _ ih =>
      simp only [Heap.merge, Heap.mergeNode] at ih ⊢
      split
      · exact .join first.2.1 (ihRight first.2.2 second) least
      · exact .join second.2.1 (ih second.2.2) least'

theorem Heap.Sized.push {h : Heap α} (sized : h.Sized) (le : α → α → Bool) (a : α) :
    (h.push le a).Sized :=
  have single : (Heap.node 1 a .empty .empty).Sized := ⟨rfl, trivial, trivial⟩
  single.merge sized le

theorem Heap.Sized.of_pop? {le : α → α → Bool} {a : α} {h rest : Heap α} (sized : h.Sized)
    (popped : h.pop? le = some (a, rest)) : rest.Sized := by
  cases h with
  | empty => cases popped
  | node size least left right =>
    cases popped
    exact .merge sized.2.1 sized.2.2 le

/-! ## Marks -/

/-- A mark that every step raises to the size that it leads to is the greatest size of a run, if it
is the size at the start. -/
theorem max?_scanl {S A : Type} (step : S → A → S) (size mark : S → Nat) {Marked : S → Prop}
    (marked_step : ∀ s a, Marked s → Marked (step s a))
    (mark_step : ∀ s a, Marked s → mark (step s a) = max (mark s) (size (step s a))) {s : S}
    (marked : Marked s) (started : mark s = size s) (actions : List A) :
    ((actions.scanl step s).map size).max? = some (mark (actions.foldl step s)) := by
  have reached (before : List A) : Marked (before.foldl step s) :=
    List.foldlRecOn before step marked fun s ok a _ => marked_step s a ok
  induction actions using List.reverseRecOn with
  | nil => rw [List.scanl_nil, List.map_singleton, List.max?_singleton, List.foldl_nil, started]
  | append_singleton before a ih =>
    have after := mark_step (before.foldl step s) a (reached before)
    obtain ⟨among, greatest⟩ := List.max?_eq_some_iff.1 ih
    rw [List.foldl_concat, after, List.scanl_append, List.map_append, List.max?_eq_some_iff]
    constructor
    · rcases Nat.le_total (size (step (before.foldl step s) a)) (mark (before.foldl step s)) with
        lower | higher
      · rw [Nat.max_eq_left lower]
        exact List.mem_append_left _ among
      · rw [Nat.max_eq_right higher]
        exact List.mem_append_right _ (List.mem_singleton_self _)
    · refine List.forall_mem_append.2 ⟨fun earlier member => ?_, fun last here => ?_⟩
      · exact Nat.le_trans (greatest earlier member) (Nat.le_max_left _ _)
      · rw [List.mem_singleton.1 here]
        exact Nat.le_max_right _ _

/-! ## Frontiers -/

/-- A frontier that knows its size and the greatest size it has had. -/
class MeasuredFrontier (F : Type) (N K : outParam Type) [Frontier F N K] [Fingerprinted N]
    [LawfulFrontier F N K] where
  /-- The numbers that are kept are right. -/
  Measured : F → Prop
  measured_push : ∀ (f : F) (node : N) (depth : Nat), Measured f →
    Measured (Frontier.push f node depth).2
  measured_of_pop? : ∀ (f rest : F) (entry : Entry N K), Frontier.pop? f = some (entry, rest) →
    Measured f → Measured rest
  size_eq_card : ∀ f : F, Measured f → Frontier.size f = (places f).card
  size_le_highWater : ∀ f : F, Measured f → Frontier.size f ≤ Frontier.highWater f
  highWater_push : ∀ (f : F) (node : N) (depth : Nat), Measured f →
    Frontier.highWater (Frontier.push f node depth).2 =
      max (Frontier.highWater f) (Frontier.size (Frontier.push f node depth).2)
  highWater_of_pop? : ∀ (f rest : F) (entry : Entry N K),
    Frontier.pop? f = some (entry, rest) → Frontier.highWater rest = Frontier.highWater f

open MeasuredFrontier

section Instances

theorem Fifo.queue_of_pop? {f rest : Fifo N} {entry : Entry N Unit}
    (popped : f.pop? = some (entry, rest)) :
    rest.queue.size + 1 = f.queue.size ∧ rest.highWater = f.highWater := by
  obtain ⟨⟨first, queue⟩, taken, same⟩ := Option.map_eq_some_iff.1 popped
  obtain ⟨rfl, rfl⟩ := Prod.mk.inj same
  rw [Queue.size_eq_length, Queue.size_eq_length f.queue, Queue.toList_of_pop? taken]
  exact ⟨rfl, rfl⟩

variable [Fingerprinted N]

/-- A node is dropped, or it joins the queue. -/
theorem Fifo.push_cases (f : Fifo N) (node : N) (depth : Nat) :
    (f.push node depth).2 = f ∨
      ∃ visited, (f.push node depth).2 =
        ⟨f.queue.push ⟨node, depth, ()⟩, visited, max f.highWater (f.queue.size + 1)⟩ := by
  unfold Fifo.push
  rcases f.visited.enlist (Fingerprinted.fingerprint node) with ⟨_ | _, visited⟩
  · exact .inl rfl
  · exact .inr ⟨visited, rfl⟩

instance : MeasuredFrontier (Fifo N) N Unit where
  Measured f := f.queue.size ≤ f.highWater
  measured_push f node depth measured := by
    change (f.push node depth).2.queue.size ≤ (f.push node depth).2.highWater
    rcases f.push_cases node depth with same | ⟨visited, pushed⟩
    · rw [same]
      exact measured
    · rw [pushed]
      exact Nat.le_max_right _ _
  measured_of_pop? f rest entry popped measured := by
    obtain ⟨size, highWater⟩ := Fifo.queue_of_pop? popped
    omega
  size_eq_card f _ := by
    change f.queue.size = f.line.length
    rw [Queue.size_eq_length, Fifo.line, List.length_map]
  size_le_highWater _ measured := measured
  highWater_push f node depth measured := by
    change (f.push node depth).2.highWater = max f.highWater (f.push node depth).2.queue.size
    rcases f.push_cases node depth with same | ⟨visited, pushed⟩
    · rw [same, Nat.max_eq_left measured]
    · rw [pushed]
      rfl
  highWater_of_pop? f rest entry popped := (Fifo.queue_of_pop? popped).2

/-- The sizes that are kept of a heap and of its greatest extent are right. -/
def BestFirst.Measured (f : BestFirst N) : Prop := f.heap.Sized ∧ f.size ≤ f.highWater

section BestFirst

variable {f rest : BestFirst N}

theorem BestFirst.Measured.push (measured : f.Measured) (node : N) (depth : Nat)
    (cost : Binary64) : (f.push node depth cost).2.Measured := by
  cases known : f.visited.knows (Fingerprinted.fingerprint node) with
  | true =>
    rw [BestFirst.push_of_knows known]
    exact measured
  | false =>
    rw [BestFirst.push_of_new known]
    exact ⟨measured.1.push _ _, Nat.le_max_right _ _⟩

theorem BestFirst.Measured.highWater_push (measured : f.Measured) (node : N) (depth : Nat)
    (cost : Binary64) :
    (f.push node depth cost).2.highWater =
      max f.highWater (f.push node depth cost).2.size := by
  cases known : f.visited.knows (Fingerprinted.fingerprint node) with
  | true =>
    rw [BestFirst.push_of_knows known]
    exact (Nat.max_eq_left measured.2).symm
  | false =>
    rw [BestFirst.push_of_new known]
    rfl

omit [Fingerprinted N] in
theorem BestFirst.Measured.of_pop? (measured : f.Measured) {entry : Entry N Key}
    (popped : f.pop? = some (entry, rest)) : rest.Measured ∧ rest.highWater = f.highWater := by
  obtain ⟨heap, out, rfl⟩ := BestFirst.exists_heap_of_pop? popped
  have sized := measured.1.of_pop? out
  have fewer := (Heap.toList_of_pop? out).length_eq
  rw [← measured.1.size_eq, List.length_cons, ← sized.size_eq] at fewer
  exact ⟨⟨sized, Nat.le_trans (Nat.le_of_succ_le (Nat.le_of_eq fewer.symm)) measured.2⟩, rfl⟩

end BestFirst

instance : MeasuredFrontier (Costed N) N Key where
  Measured f := f.frontier.heap.Sized ∧ f.frontier.heap.size ≤ f.frontier.highWater
  measured_push f node depth measured :=
    BestFirst.Measured.push measured node depth (f.costs.get node).1
  measured_of_pop? f rest entry popped measured := by
    obtain ⟨frontier, taken, rfl⟩ := Costed.exists_frontier_of_pop? popped
    exact (BestFirst.Measured.of_pop? measured taken).1
  size_eq_card f measured := by
    change f.frontier.heap.size = f.held.length
    rw [measured.1.size_eq, Costed.held, BestFirst.held, List.length_map]
  size_le_highWater _ measured := measured.2
  highWater_push f node depth measured :=
    BestFirst.Measured.highWater_push measured node depth (f.costs.get node).1
  highWater_of_pop? f rest entry popped := by
    obtain ⟨heap, -, rfl⟩ := Costed.exists_heap_of_pop? popped
    rfl

end Instances

/-! ## Changes -/

/-- What can be done to a frontier. -/
inductive Change (N : Type)
  | pop
  | push (node : N) (depth : Nat)

variable [Frontier F N K]

/-- The frontier after a change. -/
def Change.apply (f : F) : Change N → F
  | .pop =>
    match Frontier.pop? f with
    | some (_, rest) => rest
    | none => f
  | .push node depth => (Frontier.push f node depth).2

/-- What a round does to the frontier from which it takes the entry. -/
def Entry.changes (graph : Graph N) (limits : Limits) (e : Entry N K) : List (Change N) :=
  .pop :: if limits.prunes e.depth then []
    else (graph.expand e.node).map fun child => .push child (childDepth e.depth)

/-- All frontiers that a search has had, from a first one on, if these entries came out. -/
def frontiers (graph : Graph N) (limits : Limits) (first : F) (popped : List (Entry N K)) :
    List F :=
  (popped.flatMap (Entry.changes graph limits)).scanl Change.apply first

theorem Change.apply_pop {f rest : F} {entry : Entry N K}
    (popped : Frontier.pop? f = some (entry, rest)) : Change.pop.apply f = rest := by
  rw [Change.apply, popped]

/-- Children are pushed one after the other. -/
theorem Traversal.offer_eq_foldl (depth : Nat) (f : F) (children : List N) :
    (offer depth f children).2 =
      (children.map fun child => Change.push child depth).foldl Change.apply f := by
  induction children generalizing f with
  | nil => rfl
  | cons child children ih => exact ih _

variable [Fingerprinted N] [LawfulFrontier F N K] [MeasuredFrontier F N K]

theorem measured_apply {f : F} (measured : Measured f) (change : Change N) :
    Measured (change.apply f) := by
  cases change with
  | pop =>
    rw [Change.apply]
    split
    · next taken => exact measured_of_pop? _ _ _ taken measured
    · exact measured
  | push node depth => exact measured_push f node depth measured

theorem highWater_apply {f : F} (measured : Measured f) (change : Change N) :
    Frontier.highWater (change.apply f) =
      max (Frontier.highWater f) (Frontier.size (change.apply f)) := by
  cases change with
  | pop =>
    have smaller := size_le_highWater _ (measured_apply measured .pop)
    have kept : Frontier.highWater (Change.pop.apply f) = Frontier.highWater f := by
      rw [Change.apply]
      split
      · next taken => exact highWater_of_pop? _ _ _ taken
      · rfl
    rw [kept] at smaller ⊢
    exact (Nat.max_eq_left smaller).symm
  | push node depth => exact highWater_push f node depth measured

theorem measured_foldl {f : F} (measured : Measured f) (changes : List (Change N)) :
    Measured (changes.foldl Change.apply f) := by
  induction changes generalizing f with
  | nil => exact measured
  | cons change changes ih => exact ih (measured_apply measured change)

/-- If it is right for the first frontier, the greatest size kept is right after any changes. -/
theorem max?_sizes {f : F} (measured : Measured f)
    (started : Frontier.highWater f = Frontier.size f) (changes : List (Change N)) :
    ((changes.scanl Change.apply f).map Frontier.size).max? =
      some (Frontier.highWater (changes.foldl Change.apply f)) :=
  max?_scanl Change.apply Frontier.size Frontier.highWater
    (fun g change (ok : Measured g) => measured_apply ok change)
    (fun g change (ok : Measured g) => highWater_apply ok change) measured started changes

end GrammarSearch
