import Mathlib.Data.List.Nodup
import Mathlib.Data.List.Perm.Basic
import Mathlib.Order.Basic

/-!
# Look-up among entries

Entries under keys that ascend strictly are a normal form of the map from keys to values: a key is
found exactly if there is an entry of it, and the look-up tells the entries
(`Keyed.eq_of_lookup_eq`). Members of objects have texts as keys, bindings of variables have
numbers.
-/

namespace GrammarSearch

namespace Keyed

variable {κ α : Type} [BEq κ] [LawfulBEq κ] {key : κ} {value : α} {entries more : List (κ × α)}

theorem lookup_cons [DecidableEq κ] (entry : κ × α) (entries : List (κ × α)) (key : κ) :
    (entry :: entries).lookup key = if key = entry.1 then some entry.2 else entries.lookup key := by
  rw [List.lookup_cons]
  by_cases same : key = entry.1
  · simp [same]
  · simp [same, beq_eq_false_iff_ne.2 same]

theorem mem_of_lookup_eq_some (found : entries.lookup key = some value) :
    (key, value) ∈ entries := by
  obtain ⟨before, after, rfl, -⟩ := List.lookup_eq_some_iff.1 found
  exact List.mem_append_right before List.mem_cons_self

variable [Preorder κ]

/-- Entries in ascending order are found by their keys. -/
theorem lookup_eq_some_iff_mem (ascending : entries.Pairwise fun a b => a.1 < b.1) :
    entries.lookup key = some value ↔ (key, value) ∈ entries := by
  refine ⟨mem_of_lookup_eq_some, fun member => ?_⟩
  obtain ⟨before, after, rfl⟩ := List.append_of_mem member
  refine List.lookup_eq_some_iff.2 ⟨before, after, rfl, fun entry earlier => ?_⟩
  have below := (List.pairwise_append.1 ascending).2.2 entry earlier (key, value) List.mem_cons_self
  exact bne_iff_ne.2 below.ne'

/-- The look-up tells entries in ascending order. -/
theorem eq_of_lookup_eq (ascending : entries.Pairwise fun a b => a.1 < b.1)
    (ascendingMore : more.Pairwise fun a b => a.1 < b.1)
    (same : ∀ key, entries.lookup key = more.lookup key) : entries = more := by
  have distinct {list : List (κ × α)} (sorted : list.Pairwise fun a b => a.1 < b.1) : list.Nodup :=
    sorted.imp fun less equal => less.ne (congrArg Prod.fst equal)
  refine List.Perm.eq_of_pairwise (fun a b _ _ less greater => absurd less greater.asymm) ascending
    ascendingMore ((List.perm_ext_iff_of_nodup (distinct ascending) (distinct ascendingMore)).2 ?_)
  rintro ⟨key, value⟩
  rw [← lookup_eq_some_iff_mem ascending, ← lookup_eq_some_iff_mem ascendingMore, same]

end Keyed

end GrammarSearch
