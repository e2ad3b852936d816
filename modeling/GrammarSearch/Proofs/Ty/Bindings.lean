import GrammarSearch.Proofs.Lookup
import GrammarSearch.Ty.Environment
import Mathlib.Data.Nat.Basic

/-!
# Environments as maps

An environment means the map from indices to types that `Environment.get?` reads: environments that
bind the same are equal (`Environment.ext`), and each operation is told by what its result binds.

Two environments agree if no index has two types in them (`Environment.Agrees`). If they do not, a
conflict tells the first index where they clash, with the type in the one and the type in the other
(`Conflict.Splits`). Both `Environment.merge` and `Environment.leave` look for such a conflict, the
latter with the environment that the binder alone makes.
-/

namespace GrammarSearch

/-! ## Agreement -/

/-- The index does not have two types in the environments. -/
def Environment.AgreesAt (a b : Environment) (index : Nat) : Prop :=
  ∀ t u, a.get? index = some t → b.get? index = some u → t = u

/-- No index has two types in the environments. -/
def Environment.Agrees (a b : Environment) : Prop := ∀ index, a.AgreesAt b index

/-- The first index that has two types in the environments, with its type in either. -/
structure Conflict.Splits (c : Conflict) (a b : Environment) : Prop where
  bound_eq : a.get? c.index = some c.bound
  found_eq : b.get? c.index = some c.found
  differ : c.bound ≠ c.found
  first : ∀ index < c.index, a.AgreesAt b index

section Agreement

variable {a b : Environment} {c d : Conflict} {index : Nat}

theorem Environment.AgreesAt.symm (agrees : a.AgreesAt b index) : b.AgreesAt a index :=
  fun t u there here => (agrees u t here there).symm

theorem Environment.Agrees.symm (agrees : a.Agrees b) : b.Agrees a := fun index =>
  (agrees index).symm

theorem Environment.Agrees.refl (a : Environment) : a.Agrees a := by
  intro index t u here there
  exact Option.some.inj (here.symm.trans there)

theorem Conflict.Splits.not_agreesAt (splits : c.Splits a b) : ¬a.AgreesAt b c.index :=
  fun agrees => splits.differ (agrees _ _ splits.bound_eq splits.found_eq)

theorem Conflict.Splits.not_agrees (splits : c.Splits a b) : ¬a.Agrees b :=
  fun agrees => splits.not_agreesAt (agrees c.index)

theorem Conflict.Splits.symm (splits : c.Splits a b) :
    (⟨c.index, c.found, c.bound⟩ : Conflict).Splits b a :=
  ⟨splits.found_eq, splits.bound_eq, splits.differ.symm, fun i less => (splits.first i less).symm⟩

theorem Conflict.Splits.unique (splits : c.Splits a b) (other : d.Splits a b) : c = d := by
  have same : c.index = d.index := by
    rcases Nat.lt_trichotomy c.index d.index with before | same | after
    · exact absurd (other.first _ before) splits.not_agreesAt
    · exact same
    · exact absurd (splits.first _ after) other.not_agreesAt
  have bound := splits.bound_eq.symm.trans ((congrArg a.get? same).trans other.bound_eq)
  have found := splits.found_eq.symm.trans ((congrArg b.get? same).trans other.found_eq)
  cases c
  cases d
  simp only [Option.some.injEq] at same bound found
  rw [same, bound, found]

end Agreement

namespace Environment

variable {a b env : Environment} {bindings : List (Nat × Ty)} {types : List Ty} {index i : Nat}
  {t : Ty}

/-! ## Look-up -/

theorem get?_eq_some_iff : env.get? i = some t ↔ (i, t) ∈ env.bindings :=
  Keyed.lookup_eq_some_iff_mem env.ascending

/-- Environments that bind the same are equal. -/
theorem ext (same : ∀ i, a.get? i = b.get? i) : a = b := by
  have bindings := Keyed.eq_of_lookup_eq a.ascending b.ascending same
  cases a
  cases b
  congr

@[simp] theorem get?_empty (i : Nat) : empty.get? i = none := rfl

theorem mem_numbered {binding : Nat × Ty} :
    binding ∈ numbered index types ↔
      index ≤ binding.1 ∧ types[binding.1 - index]? = some binding.2 := by
  induction types generalizing index with
  | nil => simp [numbered]
  | cons first types ih =>
    obtain ⟨i, t⟩ := binding
    simp only [numbered, List.mem_cons, Prod.mk.injEq, ih]
    rcases Nat.lt_trichotomy i index with below | rfl | above
    · simp only [Nat.not_le.2 below, Nat.not_le.2 (Nat.lt_succ_of_lt below), Nat.ne_of_lt below,
        false_and, or_self]
    · simp only [Nat.not_succ_le_self, false_and, or_false, Nat.le_refl, true_and, Nat.sub_self,
        List.getElem?_cons_zero, Option.some.injEq]
      exact eq_comm
    · obtain ⟨step, rfl⟩ := Nat.exists_eq_add_of_lt above
      have inner : index + step + 1 - (index + 1) = step := by omega
      have outer : index + step + 1 - index = step + 1 := by omega
      rw [inner, outer, List.getElem?_cons_succ]
      simp only [Nat.ne_of_gt above, false_and, false_or]
      exact and_congr_left fun _ => ⟨fun _ => by omega, fun _ => by omega⟩

/-- A binder binds the indices below its length, and the others are those from outside, moved up. -/
theorem get?_enter (env : Environment) (types : List Ty) (i : Nat) :
    (env.enter types).get? i =
      if i < types.length then types.reverse[i]? else env.get? (i - types.length) := by
  ext t
  rw [get?_eq_some_iff]
  simp only [enter, List.mem_append, mem_numbered, Nat.zero_le, true_and, Nat.sub_zero,
    List.mem_map, Prod.mk.injEq, Prod.exists]
  split
  · next inside =>
    refine ⟨fun either => either.resolve_right ?_, .inl⟩
    rintro ⟨j, u, -, moved, -⟩
    omega
  · next outside =>
    have unbound : types.reverse[i]? = none :=
      List.getElem?_eq_none (by rw [List.length_reverse]; omega)
    rw [unbound, get?_eq_some_iff]
    constructor
    · rintro (absent | ⟨j, u, member, rfl, rfl⟩)
      · cases absent
      · rwa [Nat.add_sub_cancel]
    · intro member
      exact .inr ⟨i - types.length, t, member, by omega, rfl⟩

theorem get?_enter_of_lt (inside : i < types.length) :
    (env.enter types).get? i = types.reverse[i]? := by
  rw [get?_enter, if_pos inside]

theorem exists_get?_enter_of_lt (env : Environment) (inside : i < types.length) :
    ∃ t, (env.enter types).get? i = some t := by
  rw [get?_enter_of_lt inside]
  exact ⟨_, List.getElem?_eq_getElem (by rwa [List.length_reverse])⟩

@[simp] theorem get?_enter_add (env : Environment) (types : List Ty) (i : Nat) :
    (env.enter types).get? (i + types.length) = env.get? i := by
  rw [get?_enter, if_neg (by omega), Nat.add_sub_cancel]

/-- An index is one that the binder binds, or one from outside that moved up. -/
theorem lt_or_exists_add (types : List Ty) (i : Nat) :
    i < types.length ∨ ∃ j, i = j + types.length := by
  rcases Nat.lt_or_ge i types.length with inside | outside
  · exact .inl inside
  · exact .inr ⟨i - types.length, by omega⟩

/-- The binder alone binds its types, the last of them at index zero. -/
theorem get?_enter_empty (types : List Ty) (i : Nat) :
    (empty.enter types).get? i = types.reverse[i]? := by
  rcases lt_or_exists_add types i with inside | ⟨j, rfl⟩
  · exact get?_enter_of_lt inside
  · rw [get?_enter_add, get?_empty, eq_comm]
    exact List.getElem?_eq_none (by rw [List.length_reverse]; omega)

theorem bindings_enter_empty (types : List Ty) :
    (empty.enter types).bindings = numbered 0 types.reverse :=
  List.append_nil _

/-! ## One more binding -/

theorem lookup_insertBinding (ascending : bindings.Pairwise fun a b => a.1 < b.1) :
    (insertBinding index t bindings).lookup i =
      (bindings.lookup i).or (if i = index then some t else none) := by
  induction bindings with
  | nil => exact Keyed.lookup_cons _ _ _
  | cons first rest ih =>
    obtain ⟨above, later⟩ := List.pairwise_cons.1 ascending
    unfold insertBinding
    split
    · next before =>
      have absent : (first :: rest).lookup index = none := by
        refine List.lookup_eq_none_iff.2 fun binding member => ?_
        have notBelow : first.1 ≤ binding.1 := by
          rcases List.mem_cons.1 member with rfl | further
          · exact Nat.le_refl _
          · exact Nat.le_of_lt (above binding further)
        exact bne_iff_ne.2 (by omega)
      rw [Keyed.lookup_cons]
      by_cases same : i = index
      · rw [if_pos same, if_pos same, same, absent, Option.none_or]
      · rw [if_neg same, if_neg same, Option.or_none]
    · split
      · next same =>
        rw [Keyed.lookup_cons, same]
        by_cases here : i = first.1
        · rw [if_pos here, Option.some_or]
        · rw [if_neg here, if_neg here, Option.or_none]
      · rw [Keyed.lookup_cons, Keyed.lookup_cons, ih later]
        by_cases here : i = first.1
        · rw [if_pos here, if_pos here, Option.some_or]
        · rw [if_neg here, if_neg here]

/-- An index that is bound already keeps its type. -/
theorem get?_insert (env : Environment) (index : Nat) (t : Ty) (i : Nat) :
    (env.insert index t).get? i = (env.get? i).or (if i = index then some t else none) :=
  lookup_insertBinding env.ascending

theorem get?_foldl_insert (env : Environment) (bindings : List (Nat × Ty)) (i : Nat) :
    (bindings.foldl (fun env binding => env.insert binding.1 binding.2) env).get? i =
      (env.get? i).or (bindings.lookup i) := by
  induction bindings generalizing env with
  | nil => exact (Option.or_none).symm
  | cons first rest ih =>
    rw [List.foldl_cons, ih, get?_insert, Option.or_assoc, Keyed.lookup_cons]
    by_cases here : i = first.1
    · rw [if_pos here, if_pos here, Option.some_or]
    · rw [if_neg here, if_neg here, Option.none_or]

/-! ## The search for a conflict -/

theorem conflict?_eq_none_iff : a.conflict? b.bindings = none ↔ a.Agrees b := by
  rw [conflict?, List.findSome?_eq_none_iff]
  constructor
  · intro quiet i t u here there
    have looked := quiet (i, u) (get?_eq_some_iff.1 there)
    simpa only [here, ite_eq_left_iff, reduceCtorEq, imp_false, not_not] using looked
  · rintro agrees ⟨i, u⟩ member
    cases here : a.get? i with
    | none => rfl
    | some t => exact if_pos (agrees i t u here (get?_eq_some_iff.2 member))

theorem splits_of_conflict?_eq_some {c : Conflict} (found : a.conflict? b.bindings = some c) :
    c.Splits a b := by
  obtain ⟨before, ⟨i, u⟩, after, parts, here, quiet⟩ := List.findSome?_eq_some_iff.1 found
  have ascending := b.ascending
  rw [parts, List.pairwise_append, List.pairwise_cons] at ascending
  obtain ⟨-, ⟨later, -⟩, -⟩ := ascending
  cases bound : a.get? i with
  | none =>
    simp only [bound] at here
    cases here
  | some t =>
    simp only [bound] at here
    split at here
    · cases here
    · next differ =>
      cases here
      have member : (i, u) ∈ b.bindings := by
        rw [parts]
        exact List.mem_append_right before List.mem_cons_self
      refine ⟨bound, get?_eq_some_iff.2 member, differ, fun j less t' u' here there => ?_⟩
      -- The bindings ascend, so one of a smaller index was looked at before.
      rw [get?_eq_some_iff, parts, List.mem_append, List.mem_cons] at there
      rcases there with earlier | same | behind
      · have looked := quiet (j, u') earlier
        simpa only [here, ite_eq_left_iff, reduceCtorEq, imp_false, not_not] using looked
      · cases same
        exact absurd less (Nat.lt_irrefl _)
      · exact absurd (later _ behind) (Nat.lt_asymm less)

theorem conflict?_eq_some_iff {c : Conflict} :
    a.conflict? b.bindings = some c ↔ c.Splits a b := by
  refine ⟨splits_of_conflict?_eq_some, fun splits => ?_⟩
  cases found : a.conflict? b.bindings with
  | none => exact absurd (conflict?_eq_none_iff.1 found) splits.not_agrees
  | some d => rw [(splits_of_conflict?_eq_some found).unique splits]

/-- Environments agree, or there is a conflict. -/
theorem agrees_or_splits (a b : Environment) : a.Agrees b ∨ ∃ c : Conflict, c.Splits a b := by
  cases found : a.conflict? b.bindings with
  | none => exact .inl (conflict?_eq_none_iff.1 found)
  | some c => exact .inr ⟨c, conflict?_eq_some_iff.1 found⟩

end Environment

end GrammarSearch
