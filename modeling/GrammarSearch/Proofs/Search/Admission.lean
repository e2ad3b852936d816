import GrammarSearch.Search.Traversal
import Mathlib.Data.Multiset.AddSub
import Mathlib.Data.List.Nodup

/-!
# Admission to a frontier

What a search finds is a list of offers, each a node with a depth. Which of them
a frontier lets in depends on nothing but the fingerprints let in before:
`Visited.admitted` selects them. Of offers with one fingerprint the first is
taken, whatever its depth.

`LawfulFrontier` says what a frontier has to do with this, and leaves open the
order in which entries come out.
-/

namespace GrammarSearch

variable {F N K : Type}

/-! ## Fingerprints -/

/-- A node with the fingerprint is a duplicate. -/
def Visited.knows (v : Visited) (fingerprint : Digest) : Bool :=
  match v.dedup with
  | .off => false
  | .structural => v.seen.contains fingerprint.value

/-- The fingerprints let in after a node was offered. -/
def Visited.after (v : Visited) (fingerprint : Digest) : Visited :=
  if v.knows fingerprint then v else (v.enlist fingerprint).2

theorem Visited.enlist_eq (v : Visited) (fingerprint : Digest) :
    v.enlist fingerprint = (!v.knows fingerprint, (v.enlist fingerprint).2) := by
  unfold Visited.enlist Visited.knows
  cases v.dedup with
  | off => rfl
  | structural => simp [Std.TreeSet.containsThenInsert_fst]

@[simp] theorem Visited.knows_empty (dedup : Dedup) (fingerprint : Digest) :
    (Visited.empty dedup).knows fingerprint = false := by
  cases dedup with
  | off => rfl
  | structural => exact Std.TreeSet.contains_emptyc

theorem Visited.knows_off {v : Visited} (off : v.dedup = .off) (fingerprint : Digest) :
    v.knows fingerprint = false := by
  rw [Visited.knows, off]

@[simp] theorem Visited.dedup_after (v : Visited) (fingerprint : Digest) :
    (v.after fingerprint).dedup = v.dedup := by
  unfold Visited.after Visited.enlist
  cases v.knows fingerprint with
  | true => rfl
  | false => cases mode : v.dedup <;> simp [mode]

/-- A fingerprint is known once a node with it was offered. -/
theorem Visited.knows_after {v : Visited} (structural : v.dedup = .structural)
    (fingerprint other : Digest) :
    (v.after fingerprint).knows other = true ↔ v.knows other = true ∨ fingerprint = other := by
  have same : fingerprint.value = other.value ↔ fingerprint = other := by
    cases fingerprint
    cases other
    simp
  unfold Visited.after
  split
  · next known =>
    refine ⟨.inl, fun either => ?_⟩
    rcases either with before | rfl
    · exact before
    · exact known
  · simp only [Visited.knows, Visited.enlist, structural, Std.TreeSet.containsThenInsert_snd,
      Std.TreeSet.contains_insert, Bool.or_eq_true, beq_iff_eq, Std.LawfulEqCmp.compare_eq_iff_eq,
      same]
    exact Or.comm

/-! ## Offers -/

variable [Fingerprinted N]

/-- The fingerprints let in after all offers. -/
def Visited.afterAll (v : Visited) : List (N × Nat) → Visited
  | [] => v
  | offer :: offers => (v.after (Fingerprinted.fingerprint offer.1)).afterAll offers

/-- The offers that are let in. -/
def Visited.admitted (v : Visited) : List (N × Nat) → List (N × Nat)
  | [] => []
  | offer :: offers =>
    if v.knows (Fingerprinted.fingerprint offer.1) then
      (v.after (Fingerprinted.fingerprint offer.1)).admitted offers
    else offer :: (v.after (Fingerprinted.fingerprint offer.1)).admitted offers

theorem Visited.afterAll_append (v : Visited) (offers more : List (N × Nat)) :
    v.afterAll (offers ++ more) = (v.afterAll offers).afterAll more := by
  induction offers generalizing v with
  | nil => rfl
  | cons offer offers ih => exact ih _

theorem Visited.admitted_append (v : Visited) (offers more : List (N × Nat)) :
    v.admitted (offers ++ more) = v.admitted offers ++ (v.afterAll offers).admitted more := by
  induction offers generalizing v with
  | nil => rfl
  | cons offer offers ih =>
    simp only [List.cons_append, Visited.admitted, Visited.afterAll, ih]
    split <;> rfl

theorem Visited.admitted_cons (v : Visited) (offer : N × Nat) (offers : List (N × Nat)) :
    v.admitted (offer :: offers) =
      v.admitted [offer] ++ (v.after (Fingerprinted.fingerprint offer.1)).admitted offers :=
  v.admitted_append [offer] offers

theorem Visited.admitted_sublist (v : Visited) (offers : List (N × Nat)) :
    (v.admitted offers).Sublist offers := by
  induction offers generalizing v with
  | nil => exact .slnil
  | cons offer offers ih =>
    rw [Visited.admitted]
    split
    · exact (ih _).cons offer
    · exact (ih _).cons_cons offer

/-- Every offer is let in, or another with its fingerprint was. -/
theorem Visited.admitted_covers (v : Visited) {offers : List (N × Nat)} {offer : N × Nat}
    (member : offer ∈ offers) :
    v.knows (Fingerprinted.fingerprint offer.1) = true ∨
      ∃ first ∈ v.admitted offers,
        Fingerprinted.fingerprint first.1 = Fingerprinted.fingerprint offer.1 := by
  induction offers generalizing v with
  | nil => cases member
  | cons head offers ih =>
    rw [Visited.admitted]
    cases known : v.knows (Fingerprinted.fingerprint head.1) with
    | true =>
      have same : v.after (Fingerprinted.fingerprint head.1) = v := by rw [Visited.after, if_pos known]
      rcases List.mem_cons.1 member with rfl | later
      · exact .inl known
      · rw [same]
        exact ih v later
    | false =>
      rcases List.mem_cons.1 member with rfl | later
      · exact .inr ⟨offer, List.mem_cons_self, rfl⟩
      · rcases ih (v.after (Fingerprinted.fingerprint head.1)) later with before | ⟨first, here, same⟩
        · cases mode : v.dedup with
          | off =>
            rw [Visited.knows_off (by rw [Visited.dedup_after, mode])] at before
            cases before
          | structural =>
            rcases (Visited.knows_after mode _ _).1 before with before | same
            · exact .inl before
            · exact .inr ⟨head, List.mem_cons_self, same⟩
        · exact .inr ⟨first, List.mem_cons_of_mem _ here, same⟩

/-- Of the offers let in no two have one fingerprint, if duplicates are suppressed. -/
theorem Visited.admitted_apart {v : Visited} (structural : v.dedup = .structural)
    (offers : List (N × Nat)) :
    (∀ offer ∈ v.admitted offers, v.knows (Fingerprinted.fingerprint offer.1) = false) ∧
      ((v.admitted offers).map fun offer => Fingerprinted.fingerprint offer.1).Nodup := by
  induction offers generalizing v with
  | nil => exact ⟨fun _ member => absurd member List.not_mem_nil, List.nodup_nil⟩
  | cons head offers ih =>
    obtain ⟨fresh, distinct⟩ := ih (v := v.after (Fingerprinted.fingerprint head.1))
      (by rw [Visited.dedup_after, structural])
    have unknown : ∀ offer ∈ (v.after (Fingerprinted.fingerprint head.1)).admitted offers,
        ¬(v.knows (Fingerprinted.fingerprint offer.1) = true ∨
          Fingerprinted.fingerprint head.1 = Fingerprinted.fingerprint offer.1) := by
      intro offer member
      rw [← Visited.knows_after structural, fresh offer member]
      simp
    rw [Visited.admitted]
    cases known : v.knows (Fingerprinted.fingerprint head.1) with
    | true =>
      refine ⟨fun offer member => ?_, distinct⟩
      exact Bool.eq_false_iff.2 fun before => unknown offer member (.inl before)
    | false =>
      refine ⟨fun offer member => ?_, ?_⟩
      · rcases List.mem_cons.1 member with rfl | later
        · exact known
        · exact Bool.eq_false_iff.2 fun before => unknown offer later (.inl before)
      · refine List.nodup_cons.2 ⟨fun again => ?_, distinct⟩
        obtain ⟨offer, member, same⟩ := List.mem_map.1 again
        exact unknown offer member (.inr same.symm)

/-- All offers are let in if none has the fingerprint of an earlier one. -/
theorem Visited.admitted_eq_self {v : Visited} {offers : List (N × Nat)}
    (fresh : ∀ offer ∈ offers, v.knows (Fingerprinted.fingerprint offer.1) = false)
    (apart : v.dedup = .structural →
      (offers.map fun offer => Fingerprinted.fingerprint offer.1).Nodup) :
    v.admitted offers = offers := by
  induction offers generalizing v with
  | nil => rfl
  | cons head offers ih =>
    rw [Visited.admitted, fresh head List.mem_cons_self, if_neg Bool.false_ne_true, ih]
    · intro offer member
      cases mode : v.dedup with
      | off => exact Visited.knows_off (by rw [Visited.dedup_after, mode]) _
      | structural =>
        rw [← Bool.not_eq_true, Visited.knows_after mode]
        rintro (before | same)
        · rw [fresh offer (List.mem_cons_of_mem _ member)] at before
          cases before
        · exact (List.nodup_cons.1 (apart mode)).1 (List.mem_map.2 ⟨offer, member, same.symm⟩)
    · intro structural
      rw [Visited.dedup_after] at structural
      exact (List.nodup_cons.1 (apart structural)).2

/-- All offers are let in if duplicates are kept. -/
theorem Visited.admitted_off (offers : List (N × Nat)) :
    (Visited.empty .off).admitted offers = offers :=
  Visited.admitted_eq_self (fun _ _ => Visited.knows_off rfl _) fun same => by cases same

/-! ## First occurrences -/

/-- What is let in depends on the nodes offered, not on their depths. -/
theorem Visited.admitted_map (v : Visited) (f : Nat → Nat) (offers : List (N × Nat)) :
    v.admitted (offers.map fun offer => (offer.1, f offer.2)) =
      (v.admitted offers).map fun offer => (offer.1, f offer.2) := by
  induction offers generalizing v with
  | nil => rfl
  | cons offer offers ih =>
    rw [List.map_cons, Visited.admitted, Visited.admitted, ih]
    split <;> rfl

theorem Visited.after_of_knows {v : Visited} {fingerprint : Digest}
    (known : v.knows fingerprint = true) : v.after fingerprint = v := by
  rw [Visited.after, if_pos known]

theorem Visited.dedup_afterAll (v : Visited) (offers : List (N × Nat)) :
    (v.afterAll offers).dedup = v.dedup := by
  induction offers generalizing v with
  | nil => rfl
  | cons offer offers ih => rw [Visited.afterAll, ih, Visited.dedup_after]

theorem Visited.knows_afterAll {v : Visited} (structural : v.dedup = .structural)
    (offers : List (N × Nat)) (fingerprint : Digest) :
    (v.afterAll offers).knows fingerprint = true ↔
      v.knows fingerprint = true ∨
        ∃ offer ∈ offers, Fingerprinted.fingerprint offer.1 = fingerprint := by
  induction offers generalizing v with
  | nil => simp [Visited.afterAll]
  | cons head offers ih =>
    rw [Visited.afterAll, ih (by rw [Visited.dedup_after, structural]),
      Visited.knows_after structural, List.exists_mem_cons_iff, or_assoc]

/-- Nothing is let in that is known. -/
theorem Visited.admitted_of_known {v : Visited} {offers : List (N × Nat)}
    (known : ∀ offer ∈ offers, v.knows (Fingerprinted.fingerprint offer.1) = true) :
    v.admitted offers = [] ∧ v.afterAll offers = v := by
  induction offers with
  | nil => exact ⟨rfl, rfl⟩
  | cons head offers ih =>
    have here := known head List.mem_cons_self
    rw [Visited.admitted, Visited.afterAll, if_pos here, Visited.after_of_knows here]
    exact ih fun offer member => known offer (List.mem_cons_of_mem _ member)

/-- The fingerprints let in are the new ones, each once, in the order in which they first occur. -/
theorem Visited.map_fingerprint_admitted {v : Visited} (structural : v.dedup = .structural)
    (offers : List (N × Nat)) :
    (v.admitted offers).map (fun offer => Fingerprinted.fingerprint offer.1) =
      ((offers.map fun offer => Fingerprinted.fingerprint offer.1).filter
        fun fingerprint => !v.knows fingerprint).eraseDups := by
  induction offers generalizing v with
  | nil => rfl
  | cons head offers ih =>
    rw [Visited.admitted, List.map_cons, List.filter_cons]
    cases known : v.knows (Fingerprinted.fingerprint head.1) with
    | true =>
      rw [Visited.after_of_knows known]
      exact ih structural
    | false =>
      have later (fingerprint : Digest) :
          (!(v.after (Fingerprinted.fingerprint head.1)).knows fingerprint) =
            (!(fingerprint == Fingerprinted.fingerprint head.1) && !v.knows fingerprint) := by
        rw [← Bool.not_or, Bool.not_inj_iff, Bool.eq_iff_iff, Visited.knows_after structural,
          Bool.or_eq_true, beq_iff_eq, or_comm, eq_comm]
      simp only [Bool.false_eq_true, if_false, Bool.not_false, if_true, List.map_cons,
        List.eraseDups_cons, List.filter_filter, ← later]
      rw [ih (by rw [Visited.dedup_after, structural])]

/-- If deeper nodes are offered later, what is let in is not deeper than another with its
fingerprint. -/
theorem Visited.admitted_covers_shallow (v : Visited) {offers : List (N × Nat)}
    (ascending : offers.Pairwise fun a b => a.2 ≤ b.2) {offer : N × Nat}
    (member : offer ∈ offers) :
    v.knows (Fingerprinted.fingerprint offer.1) = true ∨
      ∃ first ∈ v.admitted offers,
        Fingerprinted.fingerprint first.1 = Fingerprinted.fingerprint offer.1 ∧
          first.2 ≤ offer.2 := by
  obtain ⟨before, after, rfl⟩ := List.append_of_mem member
  have until_here : offer ∈ before ++ [offer] := by simp
  rcases v.admitted_covers until_here with known | ⟨first, admitted, same⟩
  · exact .inl known
  · refine .inr ⟨first, ?_, same, ?_⟩
    · rw [List.append_cons, Visited.admitted_append]
      exact List.mem_append_left _ admitted
    · rcases List.mem_append.1 ((v.admitted_sublist _).subset admitted) with earlier | here
      · exact (List.pairwise_append.1 ascending).2.2 first earlier offer List.mem_cons_self
      · rw [List.mem_singleton.1 here]

/-! ## Frontiers -/

/-- The laws of a frontier: it holds the places, each a node with its depth, that were let in and
have not come out, and it remembers the fingerprints that were let in. -/
class LawfulFrontier (F : Type) (N K : outParam Type) [Frontier F N K] [Fingerprinted N] where
  /-- The nodes in the frontier, with their depths. -/
  places : F → Multiset (N × Nat)
  /-- The fingerprints let in. -/
  visited : F → Visited
  fresh_push : ∀ (f : F) (node : N) (depth : Nat),
    (Frontier.push f node depth).1 = !(visited f).knows (Fingerprinted.fingerprint node)
  visited_push : ∀ (f : F) (node : N) (depth : Nat),
    visited (Frontier.push f node depth).2 = (visited f).after (Fingerprinted.fingerprint node)
  places_push : ∀ (f : F) (node : N) (depth : Nat),
    places (Frontier.push f node depth).2 = places f + ↑((visited f).admitted [(node, depth)])
  places_of_pop?_eq_none : ∀ f : F, Frontier.pop? f = none → places f = 0
  places_of_pop?_eq_some : ∀ (f rest : F) (entry : Entry N K),
    Frontier.pop? f = some (entry, rest) → places f = (entry.node, entry.depth) ::ₘ places rest
  visited_of_pop?_eq_some : ∀ (f rest : F) (entry : Entry N K),
    Frontier.pop? f = some (entry, rest) → visited rest = visited f

open LawfulFrontier

variable [Frontier F N K] [LawfulFrontier F N K]

/-- Children are offered one after the other. -/
theorem Traversal.offer_spec (depth : Nat) (f : F) (children : List N) :
    (offer depth f children).1 +
        ((visited f).admitted (children.map fun child => (child, depth))).length =
      children.length ∧
    visited (offer depth f children).2 =
      (visited f).afterAll (children.map fun child => (child, depth)) ∧
    places (offer depth f children).2 =
      places f + ↑((visited f).admitted (children.map fun child => (child, depth))) := by
  induction children generalizing f with
  | nil => simp [offer, Visited.admitted, Visited.afterAll]
  | cons child children ih =>
    obtain ⟨count, seen, held⟩ := ih (Frontier.push f child depth).2
    rw [visited_push] at count seen held
    rw [places_push] at held
    simp only [offer, List.map_cons, Visited.afterAll, fresh_push]
    refine ⟨?_, seen, ?_⟩
    · simp only [Visited.admitted]
      cases (visited f).knows (Fingerprinted.fingerprint child) <;> simp <;> omega
    · rw [held, (visited f).admitted_cons (child, depth) (children.map fun child => (child, depth)),
        ← Multiset.coe_add, Multiset.add_assoc]

end GrammarSearch
