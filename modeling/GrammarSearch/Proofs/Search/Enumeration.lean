import GrammarSearch.Proofs.Search.Derivation
import Mathlib.Data.List.Shortlex

/-!
# Derivations in order

Derivations are ordered by their length, and among derivations of one length as
in a dictionary. `Grammar.Enumeration` is a list of the first derivations in
this order. Such a list grows by the extensions of all its derivations, in
their order (`Grammar.Enumeration.grow`), which is how breadth-first search
comes to its next level.
-/

namespace GrammarSearch

/-! ## The order -/

/-- The first list is shorter, or of the same length and earlier in a dictionary. -/
abbrev Precedes (d e : List Nat) : Prop := List.Shortlex (· < ·) d e

theorem lex_append_of_length_eq {d e : List Nat} (less : List.Lex (· < ·) d e)
    (length : d.length = e.length) (f h : List Nat) : List.Lex (· < ·) (d ++ f) (e ++ h) := by
  induction less with
  | nil => cases length
  | cons _ ih => exact .cons (ih (Nat.succ.inj length))
  | rel less => exact .rel less

theorem Precedes.concat {d e : List Nat} (before : Precedes d e) (i j : Nat) :
    Precedes (d ++ [i]) (e ++ [j]) := by
  rcases List.shortlex_def.1 before with shorter | ⟨length, less⟩
  · exact .of_length_lt (by simpa using shorter)
  · exact .of_lex (by simpa using length) (lex_append_of_length_eq less length [i] [j])

theorem precedes_concat_of_lt (d : List Nat) {i j : Nat} (less : i < j) :
    Precedes (d ++ [i]) (d ++ [j]) :=
  ((List.shortlex_singleton_iff i j).2 less).append_left d

theorem Precedes.trichotomy (d e : List Nat) : Precedes d e ∨ d = e ∨ Precedes e d := by
  by_cases before : Precedes d e
  · exact .inl before
  · by_cases after : Precedes e d
    · exact .inr (.inr after)
    · exact .inr (.inl (Std.Trichotomous.trichotomous d e before after))

theorem Precedes.asymm {d e : List Nat} (before : Precedes d e) : ¬Precedes e d :=
  Std.Asymm.asymm d e before

/-- Without their last elements lists keep their order, or become equal. -/
theorem Precedes.of_concat {d e : List Nat} {i j : Nat} (before : Precedes (d ++ [i]) (e ++ [j])) :
    Precedes d e ∨ d = e := by
  rcases Precedes.trichotomy d e with less | same | greater
  · exact .inl less
  · exact .inr same
  · exact absurd before (greater.concat j i).asymm

/-! ## Extensions -/

variable {V : Type} {g : Grammar V} {target : ScopedTy}

/-- The derivations that go on from a derivation by one production, in order. -/
def Grammar.extensions (g : Grammar V) (target : ScopedTy) (d : List Nat) : List (List Nat) :=
  match g.derive? (.root target) d with
  | some p => (g.applicable p).map fun index => d ++ [index]
  | none => []

theorem Grammar.mem_extensions {d e : List Nat} :
    e ∈ g.extensions target d ↔
      ∃ index, e = d ++ [index] ∧ (g.derive? (.root target) e).isSome := by
  unfold Grammar.extensions
  constructor
  · intro member
    cases derived : g.derive? (.root target) d with
    | none => simp [derived] at member
    | some p =>
      rw [derived] at member
      obtain ⟨index, applies, rfl⟩ := List.mem_map.1 member
      obtain ⟨child, filled⟩ := Grammar.mem_applicable.1 applies
      have extended := Grammar.derive?_concat.2 ⟨p, derived, filled⟩
      exact ⟨index, rfl, by rw [extended]; rfl⟩
  · rintro ⟨index, rfl, some⟩
    obtain ⟨child, extended⟩ := Option.isSome_iff_exists.1 some
    obtain ⟨p, derived, filled⟩ := Grammar.derive?_concat.1 extended
    rw [derived]
    exact List.mem_map_of_mem (Grammar.mem_applicable.2 ⟨child, filled⟩)

theorem Grammar.extensions_ascending (d : List Nat) : (g.extensions target d).Pairwise Precedes := by
  unfold Grammar.extensions
  cases g.derive? (.root target) d with
  | none => exact .nil
  | some p =>
    exact List.pairwise_map.2 ((g.applicable_ascending p).imp fun less => precedes_concat_of_lt d less)

/-- The derivations of a length, in order. -/
def Grammar.level (g : Grammar V) (target : ScopedTy) : Nat → List (List Nat)
  | 0 => [[]]
  | n + 1 => (g.level target n).flatMap (g.extensions target)

theorem Grammar.mem_level {d : List Nat} (some : (g.derive? (.root target) d).isSome) :
    d ∈ g.level target d.length := by
  induction d using List.reverseRecOn with
  | nil => exact List.mem_singleton_self _
  | append_singleton d index ih =>
    obtain ⟨child, extended⟩ := Option.isSome_iff_exists.1 some
    obtain ⟨p, derived, -⟩ := Grammar.derive?_concat.1 extended
    rw [List.length_append, List.length_singleton, Grammar.level]
    exact List.mem_flatMap.2
      ⟨d, ih (by rw [derived]; rfl), Grammar.mem_extensions.2 ⟨index, rfl, some⟩⟩

/-! ## Enumerations -/

/-- The derivations lead to the partial programs, one by one. -/
def Grammar.Derives (g : Grammar V) (target : ScopedTy) (ds : List (List Nat))
    (nodes : List PartialProgram) : Prop :=
  ds.map (g.derive? (.root target)) = nodes.map some

/-- The list holds derivations, in order, and leaves out none that comes before one of them. -/
structure Grammar.Enumeration (g : Grammar V) (target : ScopedTy) (ds : List (List Nat)) :
    Prop where
  derived : ∀ d ∈ ds, (g.derive? (.root target) d).isSome
  ascending : ds.Pairwise Precedes
  closed : ∀ d ∈ ds, ∀ e, (g.derive? (.root target) e).isSome → Precedes e d → e ∈ ds

variable {ds : List (List Nat)} {nodes : List PartialProgram}

theorem Grammar.Enumeration.nil : g.Enumeration target [] :=
  ⟨by simp, .nil, by simp⟩

theorem Grammar.Enumeration.nodup (first : g.Enumeration target ds) : ds.Nodup := by
  refine List.Pairwise.imp (fun before => ?_) first.ascending
  rintro rfl
  exact before.asymm before

/-- The extensions of the first derivations come next. -/
theorem Grammar.Enumeration.grow (first : g.Enumeration target ds) :
    g.Enumeration target ([] :: ds.flatMap (g.extensions target)) where
  derived := by
    intro d member
    rcases List.mem_cons.1 member with rfl | later
    · rfl
    · obtain ⟨e, -, extension⟩ := List.mem_flatMap.1 later
      obtain ⟨-, -, some⟩ := Grammar.mem_extensions.1 extension
      exact some
  ascending := by
    refine List.pairwise_cons.2 ⟨fun e later => ?_, List.pairwise_flatMap.2 ⟨?_, ?_⟩⟩
    · obtain ⟨d, -, extension⟩ := List.mem_flatMap.1 later
      obtain ⟨index, rfl, -⟩ := Grammar.mem_extensions.1 extension
      exact .of_length_lt (by simp)
    · exact fun d _ => Grammar.extensions_ascending d
    · refine first.ascending.imp fun before x extensionD y extensionE => ?_
      obtain ⟨i, rfl, -⟩ := Grammar.mem_extensions.1 extensionD
      obtain ⟨j, rfl, -⟩ := Grammar.mem_extensions.1 extensionE
      exact before.concat i j
  closed := by
    intro d member e some before
    rcases List.eq_nil_or_concat e with rfl | ⟨e, i, rfl⟩
    · exact List.mem_cons_self
    rw [List.concat_eq_append] at some before ⊢
    rcases List.mem_cons.1 member with rfl | later
    · exact absurd before List.not_shortlex_nil_right
    obtain ⟨d, here, extension⟩ := List.mem_flatMap.1 later
    obtain ⟨j, rfl, -⟩ := Grammar.mem_extensions.1 extension
    obtain ⟨child, extended⟩ := Option.isSome_iff_exists.1 some
    obtain ⟨p, shorter, -⟩ := Grammar.derive?_concat.1 extended
    have there : e ∈ ds := by
      rcases before.of_concat with earlier | rfl
      · exact first.closed d here e (by rw [shorter]; rfl) earlier
      · exact here
    exact List.mem_cons_of_mem _
      (List.mem_flatMap.2 ⟨e, there, Grammar.mem_extensions.2 ⟨i, rfl, some⟩⟩)

theorem Grammar.Enumeration.of_prefix {all : List (List Nat)} (whole : g.Enumeration target all)
    (first : ds <+: all) : g.Enumeration target ds where
  derived d member := whole.derived d (first.subset member)
  ascending := whole.ascending.sublist first.sublist
  closed := by
    intro d member e some before
    rcases first with ⟨rest, rfl⟩
    rcases List.mem_append.1 (whole.closed d (List.mem_append_left _ member) e some before) with
      here | later
    · exact here
    · exact absurd before ((List.pairwise_append.1 whole.ascending).2.2 d member e later).asymm

/-- The extensions lead to the children. -/
theorem Grammar.Derives.grow (derives : g.Derives target ds nodes) :
    g.Derives target ([] :: ds.flatMap (g.extensions target))
      (.root target :: nodes.flatMap g.expand) := by
  unfold Grammar.Derives at derives ⊢
  rw [List.map_cons, List.map_cons]
  congr 1
  induction ds generalizing nodes with
  | nil =>
    obtain rfl : nodes = [] := by simpa using derives.symm
    rfl
  | cons d ds ih =>
    cases nodes with
    | nil => cases derives
    | cons p nodes =>
      obtain ⟨derived, rest⟩ := List.cons.inj derives
      have extended : (g.extensions target d).map (g.derive? (.root target)) =
          (g.expand p).map some := by
        rw [Grammar.extensions, derived, Grammar.map_some_expand, List.map_map]
        refine List.map_congr_left fun index _ => ?_
        simp [Grammar.derive?_append, derived, Grammar.derive?]
      rw [List.flatMap_cons, List.flatMap_cons, List.map_append, List.map_append, extended, ih rest]

/-- The derivations of the first nodes are the first derivations. -/
theorem Grammar.Derives.exists_prefix {first : List PartialProgram}
    (derives : g.Derives target ds nodes) (among : first <+: nodes) :
    ∃ es, es <+: ds ∧ g.Derives target es first := by
  refine ⟨ds.take first.length, List.take_prefix _ _, ?_⟩
  rcases among with ⟨rest, rfl⟩
  unfold Grammar.Derives at derives ⊢
  rw [List.map_take, derives, List.map_append, List.take_left' (by simp)]

theorem Grammar.Derives.exists_node (derives : g.Derives target ds nodes) {d : List Nat}
    (member : d ∈ ds) : ∃ p ∈ nodes, g.derive? (.root target) d = some p := by
  have mapped := List.mem_map_of_mem (f := g.derive? (.root target)) member
  rw [derives] at mapped
  obtain ⟨p, here, same⟩ := List.mem_map.1 mapped
  exact ⟨p, here, same.symm⟩

theorem Grammar.Derives.mem_nodes (derives : g.Derives target ds nodes) {p : PartialProgram} :
    p ∈ nodes ↔ ∃ d ∈ ds, g.derive? (.root target) d = some p := by
  have mapped : some p ∈ nodes.map some ↔ p ∈ nodes := by simp
  rw [← mapped, ← derives, List.mem_map]

end GrammarSearch
