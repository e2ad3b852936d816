import GrammarSearch.Program.Basic

/-!
# Programs in pre-order

The label of a node is its symbol with the number of its children. The labels
of a program in pre-order are its prefix notation, and a program can be read
back from them: no list of labels begins with the notations of two programs.
-/

namespace GrammarSearch

mutual

/-- The labels of a program in pre-order. -/
def Program.labels : Program → List (String × Nat)
  | .node symbol children => (symbol, children.length) :: Program.labelsList children

/-- The labels of programs from left to right. -/
def Program.labelsList : List Program → List (String × Nat)
  | [] => []
  | p :: ps => p.labels ++ Program.labelsList ps

end

mutual

/-- A program is read off the front of a list of labels in one way. -/
theorem Program.labels_append_inj : ∀ {p q : Program} {rest others : List (String × Nat)},
    p.labels ++ rest = q.labels ++ others → p = q ∧ rest = others
  | .node s ps, .node t qs, rest, others, same => by
      simp only [Program.labels, List.cons_append, List.cons.injEq, Prod.mk.injEq] at same
      rcases same with ⟨⟨rfl, length⟩, tails⟩
      obtain ⟨rfl, rests⟩ := Program.labelsList_append_inj length tails
      exact ⟨rfl, rests⟩

theorem Program.labelsList_append_inj : ∀ {ps qs : List Program} {rest others : List (String × Nat)},
    ps.length = qs.length → Program.labelsList ps ++ rest = Program.labelsList qs ++ others →
      ps = qs ∧ rest = others
  | [], [], _, _, _, same => ⟨rfl, same⟩
  | [], _ :: _, _, _, length, _ => by cases length
  | _ :: _, [], _, _, length, _ => by cases length
  | p :: ps, q :: qs, rest, others, length, same => by
      simp only [Program.labelsList, List.append_assoc] at same
      obtain ⟨rfl, tails⟩ := Program.labels_append_inj same
      obtain ⟨rfl, rests⟩ := Program.labelsList_append_inj (Nat.succ.inj length) tails
      exact ⟨rfl, rests⟩

end

mutual

theorem Program.map_fst_labels : ∀ p : Program, p.labels.map Prod.fst = p.symbols
  | .node symbol children => by
      simp [Program.labels, Program.symbols, Program.map_fst_labelsList children]

theorem Program.map_fst_labelsList : ∀ ps : List Program,
    (Program.labelsList ps).map Prod.fst = Program.symbolsList ps
  | [] => rfl
  | p :: ps => by
      simp [Program.labelsList, Program.symbolsList, Program.map_fst_labels p,
        Program.map_fst_labelsList ps]

end

mutual

theorem Program.length_labels : ∀ p : Program, p.labels.length = p.nodeCount
  | .node symbol children => by
      simp [Program.labels, Program.nodeCount, Program.length_labelsList children, Nat.add_comm]

theorem Program.length_labelsList : ∀ ps : List Program,
    (Program.labelsList ps).length = Program.nodeCountList ps
  | [] => rfl
  | p :: ps => by
      simp [Program.labelsList, Program.nodeCountList, Program.length_labels p,
        Program.length_labelsList ps]

end

/-- Programs with one prefix notation are one program. -/
theorem Program.labels_injective {p q : Program} (same : p.labels = q.labels) : p = q :=
  (Program.labels_append_inj (congrArg (· ++ []) same)).1

end GrammarSearch
