import GrammarSearch.Proofs.Search.Ledger

/-!
# The queue of best-first search

The frontier of a best-first search is a heap, so what comes out of it comes
before all that is left (`Heap.Ordered.of_pop?`). Entries are numbered as they
are let in, and therefore no two keys are tied.

`Costed.Queued` is the state of such a frontier in the course of a search whose
costs do not descend: the entries that came out, in the strict order of their
keys, and after them those in the heap are the places that were let in, each
with its cost and its number. Taking an entry out keeps this, and so does
offering nodes that are not cheaper than what came out.
-/

namespace GrammarSearch

variable {α N : Type}

/-! ## The order of a heap -/

/-- No element comes before the root of a tree that it is in. -/
def Heap.Ordered (le : α → α → Bool) : Heap α → Prop
  | .empty => True
  | .node _ least left right =>
    (∀ a ∈ left.toList ++ right.toList, le least a = true) ∧ left.Ordered le ∧ right.Ordered le

section Heaps

variable {le : α → α → Bool}

theorem Heap.Ordered.join {least : α} {a b : Heap α}
    (before : ∀ c ∈ a.toList ++ b.toList, le least c = true) (left : a.Ordered le)
    (right : b.Ordered le) : (Heap.join least a b).Ordered le := by
  unfold Heap.join
  split
  · exact ⟨fun c member => before c (List.perm_append_comm.mem_iff.1 member), right, left⟩
  · exact ⟨before, left, right⟩

variable (trans : ∀ a b c, le a b = true → le b c = true → le a c = true)

include trans

/-- What does not come after the root does not come after anything in the heap. -/
theorem Heap.Ordered.le_of_le_root {size : Nat} {least a : α} {left right : Heap α}
    (ordered : (Heap.node size least left right).Ordered le) (first : le a least = true) :
    ∀ b ∈ (Heap.node size least left right).toList, le a b = true := by
  intro b member
  rcases List.mem_cons.1 member with rfl | below
  · exact first
  · exact trans _ _ _ first (ordered.1 b below)

variable (total : ∀ a b, le a b = true ∨ le b a = true)

include total

theorem Heap.Ordered.merge {a b : Heap α} (first : a.Ordered le) (second : b.Ordered le) :
    (Heap.merge le a b).Ordered le := by
  -- The recursion is on the first heap, and for each of its right subtrees on the second.
  induction a generalizing b with
  | empty => exact second
  | node size least left right _ ihRight =>
    induction b with
    | empty => exact first
    | node size' least' left' right' _ ih =>
      simp only [Heap.merge, Heap.mergeNode] at ih ⊢
      split
      · next less =>
        have merged := Heap.toList_merge_perm le right (.node size' least' left' right')
        refine .join (fun c member => ?_) first.2.1 (ihRight first.2.2 second)
        rcases List.mem_append.1 member with inLeft | later
        · exact first.1 c (List.mem_append_left _ inLeft)
        · rcases List.mem_append.1 (merged.mem_iff.1 later) with inRight | other
          · exact first.1 c (List.mem_append_right _ inRight)
          · exact second.le_of_le_root trans less c other
      · next more =>
        have greater : le least' least = true := (total least' least).resolve_right more
        have merged := Heap.toList_merge_perm le (.node size least left right) right'
        refine .join (fun c member => ?_) second.2.1 (ih second.2.2)
        rcases List.mem_append.1 member with inLeft | later
        · exact second.1 c (List.mem_append_left _ inLeft)
        · rcases List.mem_append.1 (merged.mem_iff.1 later) with other | inRight
          · exact first.le_of_le_root trans greater c other
          · exact second.1 c (List.mem_append_right _ inRight)

theorem Heap.Ordered.push {h : Heap α} (ordered : h.Ordered le) (a : α) :
    (h.push le a).Ordered le :=
  .merge trans total ⟨fun _ member => absurd member List.not_mem_nil, trivial, trivial⟩ ordered

/-- What comes out does not come after anything that is left. -/
theorem Heap.Ordered.of_pop? {h rest : Heap α} {a : α} (ordered : h.Ordered le)
    (popped : h.pop? le = some (a, rest)) :
    rest.Ordered le ∧ ∀ b ∈ rest.toList, le a b = true := by
  cases h with
  | empty => cases popped
  | node size least left right =>
    cases popped
    rcases ordered with ⟨before, leftOrdered, rightOrdered⟩
    exact ⟨.merge trans total leftOrdered rightOrdered, fun b member =>
      before b ((Heap.toList_merge_perm le left right).mem_iff.1 member)⟩

end Heaps

/-! ## The order of keys -/

theorem Binary64.compare_eq_lt {a b : Binary64} : compare a b = .lt ↔ a.rank < b.rank :=
  Nat.compare_eq_lt

theorem Binary64.compare_eq_eq {a b : Binary64} : compare a b = .eq ↔ a = b :=
  Nat.compare_eq_eq.trans ⟨Binary64.rank_injective, congrArg Binary64.rank⟩

/-- Keys are ordered by their costs, and those of one cost by their numbers. -/
theorem Key.compare_eq_lt {a b : Key} :
    compare a b = .lt ↔
      compare a.cost b.cost = .lt ∨ a.cost = b.cost ∧ a.order < b.order := by
  show (compare a.cost b.cost).then (compare a.order b.order) = .lt ↔ _
  rw [Ordering.then_eq_lt, Binary64.compare_eq_eq, Nat.compare_eq_lt]

theorem Key.le_iff {a b : Key} :
    a.le b = true ↔ a.cost.rank < b.cost.rank ∨ a.cost.rank = b.cost.rank ∧ a.order ≤ b.order := by
  show ((compare a.cost b.cost).then (compare a.order b.order)).isLE = true ↔ _
  rw [Ordering.isLE_then_iff_or, Binary64.compare_eq_lt, Nat.isLE_compare]
  exact or_congr_right (and_congr_left fun _ => Nat.compare_eq_eq)

/-- The key of the first entry comes before that of the second. -/
def Entry.Before (a b : Entry N Key) : Prop := compare a.key b.key = .lt

theorem Entry.before_iff {a b : Entry N Key} :
    a.Before b ↔ a.key.cost.rank < b.key.cost.rank ∨
      a.key.cost.rank = b.key.cost.rank ∧ a.key.order < b.key.order := by
  rw [Entry.Before, Key.compare_eq_lt, Binary64.compare_eq_lt]
  exact or_congr_right (and_congr_left fun _ =>
    ⟨congrArg Binary64.rank, Binary64.rank_injective⟩)

theorem BestFirst.entryLe_iff {a b : Entry N Key} :
    BestFirst.entryLe a b = true ↔ a.key.cost.rank < b.key.cost.rank ∨
      a.key.cost.rank = b.key.cost.rank ∧ a.key.order ≤ b.key.order :=
  Key.le_iff

theorem BestFirst.entryLe_total (a b : Entry N Key) :
    BestFirst.entryLe a b = true ∨ BestFirst.entryLe b a = true := by
  rw [BestFirst.entryLe_iff, BestFirst.entryLe_iff]
  omega

theorem BestFirst.entryLe_trans (a b c : Entry N Key) (first : BestFirst.entryLe a b = true)
    (second : BestFirst.entryLe b c = true) : BestFirst.entryLe a c = true := by
  rw [BestFirst.entryLe_iff] at first second ⊢
  omega

/-- Entries of different numbers are not tied. -/
theorem BestFirst.before_of_entryLe {a b : Entry N Key} (le : BestFirst.entryLe a b = true)
    (different : a.key.order ≠ b.key.order) : a.Before b := by
  rw [BestFirst.entryLe_iff] at le
  rw [Entry.before_iff]
  omega

/-- If no two entries of a heap have one number, what comes out comes before all that is left. -/
theorem BestFirst.before_of_pop? {h rest : Heap (Entry N Key)} {entry : Entry N Key}
    (ordered : h.Ordered BestFirst.entryLe)
    (distinct : (h.toList.map fun e => e.key.order).Nodup)
    (popped : h.pop? BestFirst.entryLe = some (entry, rest)) :
    ∀ later ∈ rest.toList, entry.Before later := by
  intro later member
  have orders := ((Heap.toList_of_pop? popped).map fun e => e.key.order).nodup_iff.1 distinct
  rw [List.map_cons, List.nodup_cons] at orders
  have le := (ordered.of_pop? BestFirst.entryLe_trans BestFirst.entryLe_total popped).2 later member
  -- The heap only says that `entry` is not after `later`; their numbers rule out a tie.
  exact BestFirst.before_of_entryLe le fun same =>
    orders.1 (same ▸ List.mem_map_of_mem (f := fun e => e.key.order) member)

/-! ## Numbered places -/

/-- The entries of places that are let in, numbered in order. -/
def numbered (cost : N → Binary64) (places : List (N × Nat)) : List (Entry N Key) :=
  places.zipIdx.map fun (place, number) => ⟨place.1, place.2, ⟨cost place.1, number⟩⟩

section Numbered

variable {cost : N → Binary64} {places : List (N × Nat)}

theorem numbered_concat (place : N × Nat) :
    numbered cost (places ++ [place]) =
      numbered cost places ++ [⟨place.1, place.2, ⟨cost place.1, places.length⟩⟩] := by
  simp [numbered, List.zipIdx_append]

theorem mem_numbered {e : Entry N Key} :
    e ∈ numbered cost places ↔
      e.key.cost = cost e.node ∧ places[e.key.order]? = some e.place := by
  rw [numbered, List.mem_map]
  constructor
  · rintro ⟨⟨place, number⟩, member, rfl⟩
    exact ⟨rfl, List.mk_mem_zipIdx_iff_getElem?.1 member⟩
  · rintro ⟨paid, there⟩
    refine ⟨(e.place, e.key.order), List.mk_mem_zipIdx_iff_getElem?.2 there, ?_⟩
    simp only [Entry.place, ← paid]

theorem order_lt_of_mem_numbered {e : Entry N Key} (member : e ∈ numbered cost places) :
    e.key.order < places.length :=
  (List.getElem?_eq_some_iff.1 (mem_numbered.1 member).2).1

theorem map_place_numbered : (numbered cost places).map Entry.place = places := by
  rw [numbered, List.map_map]
  exact List.zipIdx_map_fst 0 places

theorem map_order_numbered (cost : N → Binary64) (places : List (N × Nat)) :
    (numbered cost places).map (fun e => e.key.order) = List.range places.length := by
  rw [numbered, List.map_map, List.range_eq_range']
  exact List.zipIdx_map_snd 0 places

end Numbered

/-! ## Cost functions -/

variable [Fingerprinted N]

/-- The cost function after it was asked for the costs of nodes, one after the other. -/
def Costs.after (costs : Costs N) : List N → Costs N
  | [] => costs
  | node :: nodes => (costs.get node).2.after nodes

/-- Whatever it was asked before, the cost function answers with the cost of the node. -/
def Costs.Computes (costs : Costs N) (cost : N → Binary64) : Prop :=
  ∀ asked node, ((costs.after asked).get node).1 = cost node

theorem Costs.Computes.get {costs : Costs N} {cost : N → Binary64} (computes : costs.Computes cost)
    (node : N) : (costs.get node).1 = cost node :=
  computes [] node

theorem Costs.Computes.after_get {costs : Costs N} {cost : N → Binary64}
    (computes : costs.Computes cost) (node : N) : (costs.get node).2.Computes cost :=
  fun asked => computes (node :: asked)

theorem Costs.computes_direct (cost : N → Binary64) : (Costs.direct cost).Computes cost := by
  intro asked node
  induction asked with
  | nil => rfl
  | cons _ _ ih => exact ih

/-- The values kept are those of every node with their fingerprint. -/
structure Memo.Keeps {V : Type} (memo : Memo N V) (value : N → V) : Prop where
  compute_eq : memo.compute = value
  table_eq : ∀ node kept, memo.table[(Fingerprinted.fingerprint node).value]? = some kept →
    kept = value node

theorem Memo.Keeps.get {V : Type} {memo : Memo N V} {value : N → V} (keeps : memo.Keeps value)
    (respects : ∀ a b : N, Fingerprinted.fingerprint a = Fingerprinted.fingerprint b →
      value a = value b) (node : N) :
    (memo.get node).1 = value node ∧ (memo.get node).2.Keeps value := by
  cases found : memo.table[(Fingerprinted.fingerprint node).value]? with
  | some kept =>
    rw [Memo.get_of_some found]
    exact ⟨keeps.table_eq node kept found, keeps.compute_eq, keeps.table_eq⟩
  | none =>
    have here : memo.compute node = value node := by rw [keeps.compute_eq]
    rw [Memo.get_of_none found]
    refine ⟨here, keeps.compute_eq, fun other kept there => ?_⟩
    simp only [Std.TreeMap.getElem?_insert] at there
    split at there
    · next same =>
      have alike : Fingerprinted.fingerprint node = Fingerprinted.fingerprint other := by
        rw [Std.LawfulEqCmp.compare_eq_iff_eq] at same
        exact congrArg Digest.mk same
      rw [← Option.some.inj there, here]
      exact respects node other alike
    · exact keeps.table_eq other kept there

/-- A memoized cost function computes the costs it was made of, if nodes with one fingerprint have
one cost. -/
theorem Costs.computes_memoized {cost : N → Binary64}
    (respects : ∀ a b, Fingerprinted.fingerprint a = Fingerprinted.fingerprint b →
      cost a = cost b) : (Costs.memoized (.empty cost)).Computes cost := by
  have keeps_after (memo : Memo N Binary64) (keeps : memo.Keeps cost) (asked : List N) :
      ∃ later : Memo N Binary64, later.Keeps cost ∧
        (Costs.memoized memo).after asked = .memoized later := by
    induction asked generalizing memo with
    | nil => exact ⟨memo, keeps, rfl⟩
    | cons node _ ih => exact ih _ (keeps.get respects node).2
  intro asked node
  have nothing : (Memo.empty cost).Keeps cost :=
    ⟨rfl, fun node kept found => by simp [Memo.empty] at found⟩
  obtain ⟨later, keeps, same⟩ := keeps_after _ nothing asked
  rw [same]
  exact (keeps.get respects node).1

/-! ## The frontier -/

/-- The frontier of a search with the costs: the entries that came out of it came in the order of
their keys and before all that are left, and together they are the places that were let in. -/
structure Costed.Queued (cost : N → Binary64) (f : Costed N) (popped : List (Entry N Key))
    (places : List (N × Nat)) : Prop where
  computes : f.costs.Computes cost
  ordered : f.frontier.heap.Ordered BestFirst.entryLe
  nextOrder_eq : f.frontier.nextOrder = places.length
  perm : (popped ++ f.frontier.heap.toList).Perm (numbered cost places)
  sorted : popped.Pairwise Entry.Before
  below : ∀ e ∈ popped, ∀ later ∈ f.frontier.heap.toList, e.Before later

variable {cost : N → Binary64} {f rest : Costed N} {popped : List (Entry N Key)}
  {places : List (N × Nat)}

theorem Costed.Queued.empty (dedup : Dedup) {costs : Costs N} (computes : costs.Computes cost) :
    (Costed.empty dedup costs).Queued cost [] [] where
  computes := computes
  ordered := trivial
  nextOrder_eq := rfl
  perm := .refl _
  sorted := .nil
  below := fun _ member => absurd member List.not_mem_nil

/-- A node is offered that is not cheaper than what came out. -/
theorem Costed.Queued.push (queued : f.Queued cost popped places) {node : N} (depth : Nat)
    (dearer : ∀ e ∈ popped, e.key.cost.rank ≤ (cost node).rank) :
    (f.push node depth).2.Queued cost popped
      (places ++ f.frontier.visited.admitted [(node, depth)]) := by
  rw [Visited.admitted]
  cases known : f.frontier.visited.knows (Fingerprinted.fingerprint node) with
  | true =>
    rw [Costed.push_of_knows known, if_pos rfl, Visited.admitted, List.append_nil]
    exact { queued with computes := queued.computes.after_get node }
  | false =>
    obtain ⟨highWater, pushed⟩ := Costed.push_of_new known depth
    have held := Heap.toList_push_perm BestFirst.entryLe
      ⟨node, depth, ⟨cost node, places.length⟩⟩ f.frontier.heap
    rw [pushed, queued.computes.get, queued.nextOrder_eq, if_neg Bool.false_ne_true,
      Visited.admitted]
    refine ⟨queued.computes.after_get node,
      queued.ordered.push BestFirst.entryLe_trans BestFirst.entryLe_total _, ?_, ?_, queued.sorted,
      fun e came later member => ?_⟩
    · rw [List.length_append, List.length_singleton]
    · rw [numbered_concat]
      exact ((held.append_left popped).trans List.perm_middle).trans
        ((queued.perm.cons _).trans (List.perm_append_singleton _ _).symm)
    · rcases List.mem_cons.1 (held.mem_iff.1 member) with rfl | before
      · have earlier := order_lt_of_mem_numbered
          (queued.perm.mem_iff.1 (List.mem_append_left _ came))
        have costs := dearer e came
        rw [Entry.before_iff]
        simp only
        omega
      · exact queued.below e came later before

/-- Nodes are offered that are not cheaper than what came out. -/
theorem Costed.Queued.offer (queued : f.Queued cost popped places) (depth : Nat)
    {children : List N}
    (dearer : ∀ child ∈ children, ∀ e ∈ popped, e.key.cost.rank ≤ (cost child).rank) :
    (Traversal.offer depth f children).2.Queued cost popped
      (places ++ f.frontier.visited.admitted (children.map fun child => (child, depth))) := by
  induction children generalizing f places with
  | nil =>
    rw [List.map_nil, Visited.admitted, List.append_nil]
    exact queued
  | cons child children ih =>
    have first := queued.push depth (dearer child List.mem_cons_self)
    rw [List.map_cons, Visited.admitted_cons, ← List.append_assoc, ← f.visited_push child depth]
    exact ih first fun other member => dearer other (List.mem_cons_of_mem _ member)

/-- The entry that comes out is the next in the order of keys. -/
theorem Costed.Queued.of_pop? (queued : f.Queued cost popped places) {entry : Entry N Key}
    (taken : Frontier.pop? f = some (entry, rest)) :
    rest.Queued cost (popped ++ [entry]) places := by
  obtain ⟨heap, out, rfl⟩ := Costed.exists_heap_of_pop? taken
  have held := Heap.toList_of_pop? out
  have ordered :=
    (queued.ordered.of_pop? BestFirst.entryLe_trans BestFirst.entryLe_total out).1
  have perm : (popped ++ [entry] ++ heap.toList).Perm (numbered cost places) := by
    rw [List.append_assoc]
    exact (held.symm.append_left popped).trans queued.perm
  refine ⟨queued.computes, ordered, queued.nextOrder_eq, perm, ?_, fun e came later member => ?_⟩
  · refine List.pairwise_append.2
      ⟨queued.sorted, List.pairwise_singleton _ _, fun e came next here => ?_⟩
    rw [List.mem_singleton.1 here]
    exact queued.below e came entry (held.mem_iff.2 List.mem_cons_self)
  · rcases List.mem_append.1 came with before | here
    · exact queued.below e before later (held.mem_iff.2 (List.mem_cons_of_mem _ member))
    · rw [List.mem_singleton.1 here]
      have distinct := (queued.perm.map fun e => e.key.order).nodup_iff.2
        (by rw [map_order_numbered]; exact List.nodup_range)
      rw [List.map_append] at distinct
      exact BestFirst.before_of_pop? queued.ordered (List.nodup_append.1 distinct).2.1 out later
        member

/-- Whatever came out was let in, at the place that its number says. -/
theorem Costed.Queued.numbered_of_popped (queued : f.Queued cost popped places) {e : Entry N Key}
    (member : e ∈ popped) : e ∈ numbered cost places :=
  queued.perm.mem_iff.1 (List.mem_append_left _ member)

end GrammarSearch
