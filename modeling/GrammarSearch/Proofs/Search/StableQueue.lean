import GrammarSearch.Proofs.Search.CostQueue
import GrammarSearch.Proofs.Search.Sizes

/-!
# The frontier as a stable queue

A frontier in order of cost is asked to let nodes in and to give the next entry out, in whatever
order (`Request`). A log of what it was asked and what it answered (`Event`) tells which entries it
accepted, each with the cost and the depth that were offered and numbered in order of acceptance
(`Event.accepted`), and which entries came out (`Event.popped`).

`BestFirst.StableQueue` says what a frontier with a log does next: it refuses nodes that the log
knows, and gives out the accepted entry that comes first by `totalOrder` of costs and then by number
and that did not come out before. `bestFirst_stable_queue` is the statement that every frontier is
such a queue after any requests. The invariant that carries it is `BestFirst.Holds`.
-/

namespace GrammarSearch

variable {N : Type}

/-! ## The total order of words -/

/-- The strict order of `totalOrder`. All negative words come before all positive ones. Of two
negative words the one with the larger magnitude comes first, of two positive ones the one with the
smaller. -/
def Binary64.Before (x y : Binary64) : Prop :=
  match x.isNegative, y.isNegative with
  | true, false => True
  | false, true => False
  | true, true => y.magnitude < x.magnitude
  | false, false => x.magnitude < y.magnitude

theorem Binary64.before_iff {x y : Binary64} : x.Before y ↔ x.rank < y.rank := by
  have first : x.magnitude < signWeight := Nat.mod_lt _ (by decide)
  have second : y.magnitude < signWeight := Nat.mod_lt _ (by decide)
  unfold Binary64.Before Binary64.rank
  cases x.isNegative <;> cases y.isNegative <;>
    simp only [if_true, if_false, Bool.false_eq_true, true_iff, false_iff] <;> omega

instance (x y : Binary64) : Decidable (x.Before y) := decidable_of_iff _ Binary64.before_iff.symm

/-- A negative NaN, the zeros by their signs, infinity and a positive NaN. -/
example : [(⟨0xfff8000000000000⟩ : Binary64), ⟨0x8000000000000000⟩, .zero, ⟨0x7ff0000000000000⟩,
    ⟨0x7ff8000000000000⟩].Pairwise Binary64.Before := by decide

/-! ## Requests and logs -/

/-- What can be asked of a frontier in order of cost. -/
inductive Request (N : Type)
  | push (node : N) (depth : Nat) (cost : Binary64)
  | pop

/-- What a frontier was asked, and what it answered. -/
inductive Event (N : Type)
  /-- A node was offered, and was let in or refused. -/
  | offered (node : N) (depth : Nat) (cost : Binary64) (fresh : Bool)
  /-- The next entry was asked for, and came out if there was one. -/
  | asked (out? : Option (Entry N Key))

namespace Event

/-- What was let in. -/
def offer? : Event N → Option (N × Nat × Binary64)
  | .offered node depth cost true => some (node, depth, cost)
  | .offered _ _ _ false => none
  | .asked _ => none

/-- What came out. -/
def out? : Event N → Option (Entry N Key)
  | .offered .. => none
  | .asked out? => out?

/-- The entries that were accepted, numbered in order. -/
def accepted (log : List (Event N)) : List (Entry N Key) :=
  (log.filterMap offer?).zipIdx.map fun (offer, order) =>
    ⟨offer.1, offer.2.1, ⟨offer.2.2, order⟩⟩

/-- The entries that came out, in order. -/
def popped (log : List (Event N)) : List (Entry N Key) := log.filterMap out?

variable {log : List (Event N)} {event : Event N}

theorem accepted_concat_of_some {node : N} {depth : Nat} {cost : Binary64}
    (offer : event.offer? = some (node, depth, cost)) :
    accepted (log ++ [event]) =
      accepted log ++ [⟨node, depth, ⟨cost, (accepted log).length⟩⟩] := by
  simp [accepted, offer, List.zipIdx_append]

theorem accepted_concat_of_none (offer : event.offer? = none) :
    accepted (log ++ [event]) = accepted log := by
  simp [accepted, offer]

theorem popped_concat (log : List (Event N)) (event : Event N) :
    popped (log ++ [event]) = popped log ++ event.out?.toList := by
  cases out : event.out? <;> simp [popped, out]

theorem nodup_orders (log : List (Event N)) :
    ((accepted log).map fun e => e.key.order).Nodup := by
  have orders : ((accepted log).map fun e => e.key.order) =
      (log.filterMap offer?).zipIdx.map Prod.snd := by
    rw [accepted, List.map_map]
    rfl
  rw [orders, List.zipIdx_map_snd]
  exact List.nodup_range'

theorem nodup_accepted (log : List (Event N)) : (accepted log).Nodup :=
  (nodup_orders log).of_map _

end Event

open Event

variable [Fingerprinted N]

namespace BestFirst

/-- What a frontier does when it is asked for something, and the frontier afterwards. -/
def serve (f : BestFirst N) : Request N → Event N × BestFirst N
  | .push node depth cost =>
    (.offered node depth cost (f.push node depth cost).1, (f.push node depth cost).2)
  | .pop =>
    match f.pop? with
    | some (entry, rest) => (.asked (some entry), rest)
    | none => (.asked none, f)

/-- The frontier after a request. -/
def step (f : BestFirst N) (request : Request N) : BestFirst N := (f.serve request).2

/-- The frontier after requests. -/
def after (f : BestFirst N) (requests : List (Request N)) : BestFirst N := requests.foldl step f

/-- What a frontier did when it was asked for one thing after the other. -/
def log (f : BestFirst N) : List (Request N) → List (Event N)
  | [] => []
  | request :: requests => (f.serve request).1 :: (f.step request).log requests

variable {f : BestFirst N} {dedup : Dedup} {log : List (Event N)}

theorem after_concat (f : BestFirst N) (requests : List (Request N)) (request : Request N) :
    f.after (requests ++ [request]) = (f.after requests).step request :=
  List.foldl_concat ..

theorem log_concat (f : BestFirst N) (requests : List (Request N)) (request : Request N) :
    f.log (requests ++ [request]) = f.log requests ++ [((f.after requests).serve request).1] := by
  induction requests generalizing f with
  | nil => rfl
  | cons first requests ih => exact congrArg _ (ih (f.step first))

/-! ## What a frontier holds -/

/-- A frontier with a log: what was accepted is what came out and what is in the heap, and the next
number and the known fingerprints are those of what was accepted. -/
structure Holds (f : BestFirst N) (dedup : Dedup) (log : List (Event N)) : Prop where
  ordered : f.heap.Ordered entryLe
  nextOrder_eq : f.nextOrder = (accepted log).length
  dedup_eq : f.visited.dedup = dedup
  knows_iff : ∀ fingerprint, f.visited.knows fingerprint = true ↔
    dedup = .structural ∧ ∃ e ∈ accepted log, Fingerprinted.fingerprint e.node = fingerprint
  perm : (popped log ++ f.heap.toList).Perm (accepted log)

theorem holds_empty (dedup : Dedup) : (empty dedup : BestFirst N).Holds dedup [] where
  ordered := trivial
  nextOrder_eq := rfl
  dedup_eq := rfl
  knows_iff fingerprint := by simp [empty, accepted]
  perm := .refl _

theorem Holds.push (holds : f.Holds dedup log) (node : N) (depth : Nat) (cost : Binary64) :
    (f.step (.push node depth cost)).Holds dedup
      (log ++ [(f.serve (.push node depth cost)).1]) := by
  rw [step, serve]
  cases known : f.visited.knows (Fingerprinted.fingerprint node) with
  | true =>
    rw [push_of_knows known]
    have same : accepted (log ++ [.offered node depth cost false]) = accepted log :=
      accepted_concat_of_none rfl
    refine ⟨holds.ordered, ?_, holds.dedup_eq, fun fingerprint => ?_, ?_⟩
    · rw [same]
      exact holds.nextOrder_eq
    · rw [same]
      exact holds.knows_iff fingerprint
    · rw [same, popped_concat, Event.out?, Option.toList_none, List.append_nil]
      exact holds.perm
  | false =>
    rw [push_of_new known, holds.nextOrder_eq]
    have more : accepted (log ++ [.offered node depth cost true]) =
        accepted log ++ [⟨node, depth, ⟨cost, (accepted log).length⟩⟩] :=
      accepted_concat_of_some rfl
    have pushed := Heap.toList_push_perm entryLe ⟨node, depth, ⟨cost, (accepted log).length⟩⟩ f.heap
    refine ⟨holds.ordered.push entryLe_trans entryLe_total _, ?_, ?_, fun fingerprint => ?_, ?_⟩
    · rw [more, List.length_append, List.length_singleton]
    · rw [Visited.dedup_after, holds.dedup_eq]
    · cases mode : dedup with
      | off =>
        have off : (f.visited.after (Fingerprinted.fingerprint node)).dedup = .off := by
          rw [Visited.dedup_after, holds.dedup_eq, mode]
        simp [Visited.knows_off off]
      | structural =>
        have structural := holds.dedup_eq.trans mode
        rw [Visited.knows_after structural, holds.knows_iff, more]
        simp [mode, or_and_right, exists_or]
    · rw [more, popped_concat, Event.out?, Option.toList_none, List.append_nil]
      exact ((pushed.append_left _).trans List.perm_middle).trans
        ((holds.perm.cons _).trans (List.perm_append_singleton _ _).symm)

theorem Holds.pop (holds : f.Holds dedup log) :
    (f.step .pop).Holds dedup (log ++ [(f.serve .pop).1]) := by
  rw [step, serve]
  cases out : f.pop? with
  | none =>
    have same : accepted (log ++ [.asked none]) = accepted log := accepted_concat_of_none rfl
    have quiet : popped (log ++ [.asked none]) = popped log := by
      rw [popped_concat, Event.out?, Option.toList_none, List.append_nil]
    exact ⟨holds.ordered, by rw [same, holds.nextOrder_eq], holds.dedup_eq,
      fun fingerprint => by rw [same, holds.knows_iff], by rw [same, quiet]; exact holds.perm⟩
  | some result =>
    obtain ⟨entry, rest⟩ := result
    obtain ⟨heap, taken, rfl⟩ := exists_heap_of_pop? out
    have same : accepted (log ++ [.asked (some entry)]) = accepted log :=
      accepted_concat_of_none rfl
    have ordered := (holds.ordered.of_pop? entryLe_trans entryLe_total taken).1
    refine ⟨ordered, by rw [same, holds.nextOrder_eq], holds.dedup_eq,
      fun fingerprint => by rw [same, holds.knows_iff], ?_⟩
    rw [same, popped_concat, Event.out?, Option.toList_some, List.append_assoc]
    exact ((Heap.toList_of_pop? taken).symm.append_left _).trans holds.perm

/-- Whatever is asked, the frontier goes on to hold what its log says. -/
theorem Holds.step (holds : f.Holds dedup log) (request : Request N) :
    (f.step request).Holds dedup (log ++ [(f.serve request).1]) := by
  cases request with
  | push node depth cost => exact holds.push node depth cost
  | pop => exact holds.pop

theorem holds_after (dedup : Dedup) (requests : List (Request N)) :
    ((empty dedup : BestFirst N).after requests).Holds dedup
      ((empty dedup : BestFirst N).log requests) := by
  induction requests using List.reverseRecOn with
  | nil => exact holds_empty dedup
  | append_singleton requests request ih =>
    rw [after_concat, log_concat]
    exact ih.step request

/-- What is in the heap was accepted and did not come out. -/
theorem Holds.mem_heap_iff (holds : f.Holds dedup log) {e : Entry N Key} :
    e ∈ f.heap.toList ↔ e ∈ accepted log ∧ e ∉ popped log := by
  have apart := (holds.perm.nodup_iff.2 (nodup_accepted log))
  rw [← holds.perm.mem_iff, List.mem_append]
  constructor
  · exact fun here => ⟨.inr here, fun out => (List.nodup_append.1 apart).2.2 e out e here rfl⟩
  · exact fun both => both.1.resolve_left both.2

/-! ## Sizes -/

theorem Measured.step (measured : f.Measured) (request : Request N) : (f.step request).Measured := by
  cases request with
  | push node depth cost => exact measured.push node depth cost
  | pop =>
    rw [BestFirst.step, serve]
    cases out : f.pop? with
    | none => exact measured
    | some result => exact (measured.of_pop? out).1

theorem Measured.highWater_step (measured : f.Measured) (request : Request N) :
    (f.step request).highWater = max f.highWater (f.step request).size := by
  cases request with
  | push node depth cost => exact measured.highWater_push node depth cost
  | pop =>
    have smaller := (measured.step .pop).2
    have kept : (f.step .pop).highWater = f.highWater := by
      rw [BestFirst.step, serve]
      cases out : f.pop? with
      | none => rfl
      | some result => exact (measured.of_pop? out).2
    rw [kept] at smaller ⊢
    exact (Nat.max_eq_left smaller).symm

omit [Fingerprinted N] in
theorem measured_empty (dedup : Dedup) : (empty dedup : BestFirst N).Measured :=
  ⟨trivial, Nat.le_refl 0⟩

theorem measured_after (dedup : Dedup) (requests : List (Request N)) :
    ((empty dedup : BestFirst N).after requests).Measured :=
  List.foldlRecOn requests BestFirst.step (measured_empty dedup) fun _ measured request _ =>
    measured.step request

/-! ## Stable queues -/

/-- A frontier with a log is a stable queue without loss or duplication. -/
structure StableQueue (f : BestFirst N) (dedup : Dedup) (log : List (Event N)) : Prop where
  /-- A node is refused exactly if duplicates are suppressed and one with its fingerprint was
  accepted, whether that came out or not. -/
  refuses_iff : ∀ node depth cost, (f.push node depth cost).1 = false ↔
    dedup = .structural ∧
      ∃ e ∈ accepted log, Fingerprinted.fingerprint e.node = Fingerprinted.fingerprint node
  /-- To refuse a node changes nothing. -/
  refused : ∀ node depth cost, (f.push node depth cost).1 = false →
    (f.push node depth cost).2 = f
  /-- Nothing comes out exactly if all that was accepted came out. -/
  exhausted_iff : f.pop? = none ↔ ∀ e ∈ accepted log, e ∈ popped log
  /-- What comes out was accepted, did not come out before, and comes before every other entry of
  this kind, by cost and then by number. -/
  least : ∀ e rest, f.pop? = some (e, rest) → e ∈ accepted log ∧ e ∉ popped log ∧
    ∀ other ∈ accepted log, other ∉ popped log → other ≠ e →
      e.key.cost.Before other.key.cost ∨
        e.key.cost = other.key.cost ∧ e.key.order < other.key.order
  /-- The accepted entries are those that came out and those that are left, and all are distinct. -/
  conserved : (popped log ++ f.heap.toList).Perm (accepted log)
  distinct : (accepted log).Nodup
  size_eq : f.size = f.heap.toList.length

omit [Fingerprinted N] in
theorem pop?_eq_none_iff : f.pop? = none ↔ f.heap.toList = [] := by
  rw [pop?, Option.map_eq_none_iff]
  cases f.heap with
  | empty => exact ⟨fun _ => rfl, fun _ => rfl⟩
  | node size least left right => exact ⟨nofun, nofun⟩

theorem Holds.refuses_iff (holds : f.Holds dedup log) (node : N) (depth : Nat) (cost : Binary64) :
    (f.push node depth cost).1 = false ↔ dedup = .structural ∧
      ∃ e ∈ accepted log, Fingerprinted.fingerprint e.node = Fingerprinted.fingerprint node := by
  rw [← holds.knows_iff]
  cases known : f.visited.knows (Fingerprinted.fingerprint node) with
  | true => simp [push_of_knows known]
  | false => simp [push_of_new known]

theorem Holds.exhausted_iff (holds : f.Holds dedup log) :
    f.pop? = none ↔ ∀ e ∈ accepted log, e ∈ popped log := by
  rw [pop?_eq_none_iff, List.eq_nil_iff_forall_not_mem]
  simp only [holds.mem_heap_iff, not_and, not_not]

theorem Holds.least (holds : f.Holds dedup log) {e other : Entry N Key} {rest : BestFirst N}
    (out : f.pop? = some (e, rest)) (here : other ∈ f.heap.toList) (different : other ≠ e) :
    e.Before other := by
  obtain ⟨heap, taken, -⟩ := exists_heap_of_pop? out
  have distinct := (holds.perm.map fun e => e.key.order).nodup_iff.2 (nodup_orders log)
  rw [List.map_append] at distinct
  have later : other ∈ heap.toList := by
    rcases List.mem_cons.1 ((Heap.toList_of_pop? taken).mem_iff.1 here) with same | later
    · exact absurd same different
    · exact later
  exact before_of_pop? holds.ordered (List.nodup_append.1 distinct).2.1 taken other later

theorem Holds.stableQueue (holds : f.Holds dedup log) (measured : f.Measured) :
    f.StableQueue dedup log where
  refuses_iff := holds.refuses_iff
  refused node depth cost refused := by
    cases known : f.visited.knows (Fingerprinted.fingerprint node) with
    | true => rw [push_of_knows known]
    | false =>
      rw [push_of_new known] at refused
      cases refused
  exhausted_iff := holds.exhausted_iff
  least e rest out := by
    obtain ⟨heap, taken, -⟩ := exists_heap_of_pop? out
    have first := (Heap.toList_of_pop? taken).mem_iff.2 List.mem_cons_self
    obtain ⟨accepted, notOut⟩ := holds.mem_heap_iff.1 first
    refine ⟨accepted, notOut, fun other otherAccepted otherNotOut different => ?_⟩
    have before := holds.least out (holds.mem_heap_iff.2 ⟨otherAccepted, otherNotOut⟩) different
    rw [Entry.before_iff] at before
    rw [Binary64.before_iff]
    exact before.imp_right (And.imp_left Binary64.rank_injective)
  conserved := holds.perm
  distinct := nodup_accepted log
  size_eq := measured.1.size_eq

end BestFirst

/-- Whatever is asked of a new frontier in order of cost, in either mode, it is a stable queue for
the log of its answers, and its high-water mark is the greatest size that it has had. -/
theorem bestFirst_stable_queue (dedup : Dedup) (requests : List (Request N)) :
    ((BestFirst.empty dedup : BestFirst N).after requests).StableQueue dedup
        ((BestFirst.empty dedup : BestFirst N).log requests) ∧
      ((requests.scanl BestFirst.step (BestFirst.empty dedup : BestFirst N)).map
          BestFirst.size).max? =
        some ((BestFirst.empty dedup : BestFirst N).after requests).highWater :=
  ⟨(BestFirst.holds_after dedup requests).stableQueue (BestFirst.measured_after dedup requests),
    max?_scanl BestFirst.step BestFirst.size BestFirst.highWater
      (fun _ request (measured : BestFirst.Measured _) => measured.step request)
      (fun _ request (measured : BestFirst.Measured _) => measured.highWater_step request)
      (BestFirst.measured_empty dedup) rfl requests⟩

end GrammarSearch
