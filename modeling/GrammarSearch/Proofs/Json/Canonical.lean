import GrammarSearch.Proofs.Json.Decoding
import Mathlib.Data.List.Induction
import Mathlib.Data.String.Basic

/-!
# Values in canonical form

A value is in canonical form if the members of its objects are in ascending order of their keys and
its numbers are 64-bit integers (`Json.InOrder`). Such a value has a canonical text, its compact
one, and no other such value has the same text.
-/

namespace GrammarSearch

/-! ## Entries in order -/

namespace Keyed

variable {α : Type} {key : String} {value : α} {entries : List (String × α)}

theorem insert_eq_concat (below : ∀ entry ∈ entries, entry.1 < key) :
    insert key value entries = entries ++ [(key, value)] := by
  induction entries with
  | nil => rfl
  | cons entry entries ih =>
    obtain ⟨here, later⟩ := List.forall_mem_cons.1 below
    rw [insert, if_neg here.asymm, if_neg here.ne', ih later, List.cons_append]

/-- Entries in ascending order of their keys stay as they are. -/
theorem sort_eq_self (ascending : entries.Pairwise fun a b => a.1 < b.1) :
    sort entries = entries := by
  induction entries using List.reverseRecOn with
  | nil => rfl
  | append_singleton entries entry ih =>
    obtain ⟨before, -, below⟩ := List.pairwise_append.1 ascending
    have sorted : sort (entries ++ [entry]) = insert entry.1 entry.2 (sort entries) := by
      simp [sort]
    rw [sorted, ih before]
    exact insert_eq_concat fun other member => below other member entry List.mem_cons_self

end Keyed

/-! ## Values in order -/

namespace Json

/-- The value is in canonical form. -/
structure InOrder (v : Json) : Prop where
  sorted : v.sorted = v
  words : v.firstNonWord? = none

variable {v w : Json} {items : List Json} {members : List (String × Json)}

theorem inOrder_bool (value : Bool) : (Json.bool value).InOrder := ⟨rfl, rfl⟩

theorem inOrder_text (value : String) : (Json.text value).InOrder := ⟨rfl, rfl⟩

theorem inOrder_ofNat_toNat (n : UInt64) : (ofNat n.toNat).InOrder := by
  refine ⟨rfl, ?_⟩
  have word : (Number.integer n.toNat).IsWord := by
    have := n.toNat_lt
    simp only [Number.IsWord]
    omega
  simp [ofNat, firstNonWord?, word]

theorem inOrder_array (inOrder : ∀ item ∈ items, item.InOrder) : (Json.array items).InOrder := by
  have each : sortedItems items = items ∧ firstNonWordItem? items = none := by
    induction items with
    | nil => exact ⟨rfl, rfl⟩
    | cons item items ih =>
      obtain ⟨here, later⟩ := List.forall_mem_cons.1 inOrder
      obtain ⟨sorted, words⟩ := ih later
      exact ⟨by rw [sortedItems, here.sorted, sorted], by
        rw [firstNonWordItem?, here.words, words, Option.or_none]⟩
  exact ⟨by rw [Json.sorted, each.1], by rw [firstNonWord?, each.2]⟩

theorem inOrder_object (ascending : (members.map Prod.fst).Pairwise (· < ·))
    (inOrder : ∀ member ∈ members, member.2.InOrder) : (Json.object members).InOrder := by
  have each : sortedMembers members = members ∧ firstNonWordMember? members = none := by
    clear ascending
    induction members with
    | nil => exact ⟨rfl, rfl⟩
    | cons member members ih =>
      obtain ⟨here, later⟩ := List.forall_mem_cons.1 inOrder
      obtain ⟨sorted, words⟩ := ih later
      exact ⟨by rw [sortedMembers, here.sorted, sorted], by
        rw [firstNonWordMember?, here.words, words, Option.or_none]⟩
  exact ⟨by rw [Json.sorted, each.1, Keyed.sort_eq_self (List.pairwise_map.1 ascending)],
    by rw [firstNonWord?, each.2]⟩

/-- The canonical text of a value in order is its compact text. -/
theorem InOrder.canonical_eq (inOrder : v.InOrder) : v.canonical = .ok v.compact := by
  simp only [canonical, inOrder.sorted, inOrder.words]

/-- No two values in order have one text. -/
theorem InOrder.eq_of_compact_eq (inOrder : v.InOrder) (inOrderOther : w.InOrder)
    (same : v.compact = w.compact) : v = w := by
  have sorted := sorted_eq_of_canonical_eq inOrder.canonical_eq
    (same ▸ inOrderOther.canonical_eq)
  rwa [inOrder.sorted, inOrderOther.sorted] at sorted

end Json

end GrammarSearch
