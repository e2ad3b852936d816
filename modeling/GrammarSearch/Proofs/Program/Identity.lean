import GrammarSearch.Program.Basic
import GrammarSearch.Proofs.Json.Canonical

/-!
# The identity of programs

A program always has a canonical text, and programs with one canonical text are
one program. So a digest of the text identifies the program as far as the hash
function tells texts apart.
-/

namespace GrammarSearch

mutual

/-- The JSON value of a program is in canonical form. -/
theorem Program.inOrder_toJson (p : Program) : p.toJson.InOrder := by
  rcases p with ⟨symbol, children⟩
  have items : (Json.array (Program.toJsonList children)).InOrder :=
    Json.inOrder_array (Program.inOrder_of_mem_toJsonList children)
  rw [Program.toJson]
  exact Json.inOrder_object (show ["children", "symbol"].Pairwise (· < ·) by decide)
    (by simpa using ⟨items, Json.inOrder_text symbol⟩)

theorem Program.inOrder_of_mem_toJsonList :
    ∀ (ps : List Program), ∀ item ∈ Program.toJsonList ps, item.InOrder
  | [], _, absent => by cases absent
  | p :: ps, item, member => by
      rcases List.mem_cons.1 member with here | later
      · rw [here]
        exact p.inOrder_toJson
      · exact Program.inOrder_of_mem_toJsonList ps item later

end

mutual

theorem Program.toJson_injective : ∀ {p q : Program}, p.toJson = q.toJson → p = q
  | .node s ps, .node t qs, same => by
      simp only [Program.toJson, Json.object.injEq, List.cons.injEq, Prod.mk.injEq, true_and,
        Json.array.injEq, Json.text.injEq, and_true] at same
      rw [Program.toJsonList_injective same.1, same.2]

theorem Program.toJsonList_injective : ∀ {ps qs : List Program},
    Program.toJsonList ps = Program.toJsonList qs → ps = qs
  | [], [], _ => rfl
  | [], _ :: _, same => by cases same
  | _ :: _, [], same => by cases same
  | p :: ps, q :: qs, same => by
      simp only [Program.toJsonList, List.cons.injEq] at same
      rw [Program.toJson_injective same.1, Program.toJsonList_injective same.2]

end

/-- Every program has a canonical text. -/
theorem Program.canonical_eq (p : Program) : p.canonical = .ok p.toJson.compact :=
  p.inOrder_toJson.canonical_eq

/-- Programs with one canonical text are one program. -/
theorem Program.eq_of_compact_eq {p q : Program} (same : p.toJson.compact = q.toJson.compact) :
    p = q :=
  Program.toJson_injective (p.inOrder_toJson.eq_of_compact_eq q.inOrder_toJson same)

end GrammarSearch
